import NodeInventory.Client
import NodeInventory.Https
import NodeInventory.Proofs.Json.RoundTrip
import NodeInventory.Proofs.Text.Percent
import Mathlib.Data.List.TakeWhile

/-!
# Commands as the server receives them

A command is sent to an address that reaches the server as it is, with the node that is meant in its
path and in its body (`Command.deactivate_not_redirected`).
-/

namespace NodeInventory

/-!
## Addresses that are kept

The target of a request is what remains of its address: blanks at the end, tabs, line breaks and the
fragment are left out, some characters are encoded, and the path is resolved.  Of an address whose
path is resolved already nothing is lost, and nothing is changed, if it has none of these characters
(`Https.isPlain`).

* `Https.isPlain_of_mem_encodeString` : percent-encoded text is plain;
* `Https.target_query` : the target of a plain address with a query is the address.
-/

section

open Text

namespace Https

/-- Characters that are the same in an address and in its target. -/
def isPlain (c : Char) : Bool := !isForbiddenInQuery c && c ≠ '#'

theorem isPlain_iff {c : Char} :
    isPlain c = true ↔ ' ' < c ∧ c < '\x7f' ∧ c ∉ ['"', '<', '>', '\x27', '#'] := by
  simp [isPlain, isForbiddenInQuery, isForbidden, and_assoc]

theorem isPlain_of_isAlphanum {c : Char} (h : c.isAlphanum = true) : isPlain c = true := by
  have hspecial : c ∉ ['"', '<', '>', '\x27', '#'] := by
    intro hc
    simp only [List.mem_cons, List.not_mem_nil, or_false] at hc
    rcases hc with rfl | rfl | rfl | rfl | rfl <;> exact absurd h (by decide)
  rw [Percent.isAlphanum_iff, Char.toNat] at h
  simp only [isPlain_iff, Char.lt_def, UInt32.lt_iff_toNat_lt, Char.reduceVal, UInt32.reduceToNat]
  exact ⟨by omega, by omega, hspecial⟩

/-- What the percent-encoder writes is plain. -/
theorem isPlain_of_mem_encodeString {s : String} {c : Char}
    (hc : c ∈ (Percent.encodeString s).toList) : isPlain c = true := by
  rw [Percent.encodeString, String.toList_ofList] at hc
  rcases Percent.mem_encode hc with h | rfl
  · simp only [Percent.isUnreserved, Bool.or_eq_true, decide_eq_true_eq] at h
    rcases h with (((halphanum | rfl) | rfl) | rfl) | rfl
    · exact isPlain_of_isAlphanum halphanum
    all_goals decide
  · decide

theorem encodeSome_eq_self {forbidden : Char → Bool} {s : List Char}
    (h : ∀ c ∈ s, forbidden c = false) : encodeSome forbidden s = s := by
  have hkept : ∀ c ∈ s, (if forbidden c then
      (String.utf8EncodeChar c).flatMap Percent.encodeByte else [c]) = [c] := by
    intro c hc
    rw [h c hc]
    rfl
  rw [encodeSome, List.flatMap_congr hkept, List.flatMap_singleton']

theorem takeWhile_filter_trimmed_eq_self {s : List Char} (h : ∀ c ∈ s, isPlain c = true) :
    ((s.reverse.dropWhile (· ≤ ' ')).reverse.filter fun c =>
      c ≠ '\t' && c ≠ '\n' && c ≠ '\r').takeWhile (· ≠ '#') = s := by
  have hend : s.reverse.dropWhile (· ≤ ' ') = s.reverse := by
    rw [List.dropWhile_eq_self_iff]
    intro hl
    have hlast := isPlain_iff.1 (h _ (List.mem_reverse.1 (List.getElem_mem hl)))
    simpa using hlast.1
  have hbreaks : ∀ c ∈ s, (c ≠ '\t' && c ≠ '\n' && c ≠ '\r') = true := by
    intro c hc
    have hlow := (isPlain_iff.1 (h c hc)).1
    simp only [Bool.and_eq_true, decide_eq_true_eq]
    refine ⟨⟨?_, ?_⟩, ?_⟩ <;> rintro rfl <;> exact absurd hlow (by decide)
  have hfragment : ∀ c ∈ s, decide (c ≠ '#') = true := by
    intro c hc
    have hspecial := (isPlain_iff.1 (h c hc)).2.2
    exact decide_eq_true (ne_of_mem_of_not_mem (by decide) hspecial).symm
  rw [hend, List.reverse_reverse, List.filter_eq_self.2 hbreaks,
    List.takeWhile_eq_self_iff.2 hfragment]

/-- The target of a plain address with a query is the address, if its path is resolved. -/
theorem target_query {path query : List Char} (hpath : ∀ c ∈ path, isPlain c = true ∧ c ≠ '?')
    (hresolved : targetPath path = path) (hquery : ∀ c ∈ query, isPlain c = true) :
    target (path ++ '?' :: query) = path ++ '?' :: query := by
  have hplain : ∀ c ∈ path ++ '?' :: query, isPlain c = true := by
    simp only [List.forall_mem_append, List.forall_mem_cons]
    exact ⟨fun c hc => (hpath c hc).1, by decide, hquery⟩
  have hfront : ∀ c ∈ path, decide (c ≠ '?') = true := fun c hc => decide_eq_true (hpath c hc).2
  have hkept : encodeSome isForbiddenInQuery query = query := by
    refine encodeSome_eq_self fun c hc => ?_
    have hc' := hquery c hc
    simp only [isPlain, Bool.and_eq_true, Bool.not_eq_true'] at hc'
    exact hc'.1
  rw [target, takeWhile_filter_trimmed_eq_self hplain, List.takeWhile_append_of_pos hfront,
    List.dropWhile_append_of_pos hfront]
  simp [hresolved, hkept]

end Https

end

/-!
## The deactivation of a node

A deactivation names its node twice: percent-encoded in the query string of the path, and as a JSON
string in the body (`Command.Deactivates`).  Whatever text the name is, both name this node, and the
query string has no other field than the ones of a deactivation.

* `Command.deactivates_post` : the request for a deactivation names the node, and nothing else;
* `Command.Deactivates.unique` : a path names one node only;
* `Command.line_send_deactivationPath`, `Command.run_text_deactivationBody` : the server receives
  the path and the body that were sent;
* `Command.deactivate_not_redirected` : all of it, for the request that `Command.deactivate` makes.
-/

section

open Text

namespace Command

/-- A request that deactivates a node: its path is a query string behind a `?`, the only one in it,
whose fields are the percent-encoded name of the node, the command and the version of its form, and
the one `certname` of its body is the name. -/
def Deactivates (node : String) (request : Request) : Prop :=
  request.method = .post ∧
    (∃ params value, request.path = "?" ++ params ∧ '?' ∉ params.toList ∧
      QueryString.fields params =
        [("certname", value), ("command", "deactivate_node"), ("version", "3")].map some ∧
      Percent.decode value.toList = .ok node.toList) ∧
    ∃ fields, request.body = some (.object fields) ∧
      fields.filter (fun f => f.1 = "certname") = [("certname", .string node)]

/-! ### The path -/

/-- The query string of a deactivation. -/
def deactivationQuery (node : String) : String :=
  "certname" ++ "=" ++ Percent.encodeString node ++ "&" ++
    ("command" ++ "=" ++ "deactivate_node" ++ "&" ++ ("version" ++ "=" ++ "3"))

theorem deactivationPath_eq (node : String) :
    deactivationPath node = "?" ++ deactivationQuery node := by
  have hform : Nat.toDigits 10 3 = ['3'] := rfl
  rw [← String.toList_inj]
  simp [deactivationPath, deactivationQuery, deactivationForm, toString, hform]

theorem fields_deactivationQuery (node : String) :
    QueryString.fields (deactivationQuery node) =
      [("certname", Percent.encodeString node), ("command", "deactivate_node"),
        ("version", "3")].map some := by
  have hnode := QueryString.fields_field (by decide : '&' ∉ "certname".toList) (by decide)
    (Percent.not_mem_encodeString (by decide) node)
  have hcommand := QueryString.fields_field (by decide : '&' ∉ "command".toList) (by decide)
    (by decide : '&' ∉ "deactivate_node".toList)
  have hversion := QueryString.fields_field (by decide : '&' ∉ "version".toList) (by decide)
    (by decide : '&' ∉ "3".toList)
  rw [deactivationQuery, QueryString.fields_append, QueryString.fields_append, hnode, hcommand,
    hversion]
  rfl

theorem toList_deactivationQuery (node : String) :
    (deactivationQuery node).toList = "certname=".toList ++
      ((Percent.encodeString node).toList ++ "&command=deactivate_node&version=3".toList) := by
  simp [deactivationQuery]

theorem isPlain_of_mem_deactivationQuery {node : String} {c : Char}
    (hc : c ∈ (deactivationQuery node).toList) : Https.isPlain c = true := by
  rw [toList_deactivationQuery, List.mem_append, List.mem_append] at hc
  rcases hc with hc | hc | hc
  · exact List.all_eq_true.1 (by decide : "certname=".toList.all Https.isPlain = true) c hc
  · exact Https.isPlain_of_mem_encodeString hc
  · exact List.all_eq_true.1
      (by decide : "&command=deactivate_node&version=3".toList.all Https.isPlain = true) c hc

theorem not_mem_deactivationQuery (node : String) : '?' ∉ (deactivationQuery node).toList := by
  have hnode := Percent.not_mem_encodeString (by decide : '?' ∈ ['&', '=', '?']) node
  simp only [toList_deactivationQuery, List.mem_append, hnode]
  decide

/-! ### The request -/

/-- The request for a deactivation names the node, and nothing else. -/
theorem deactivates_post (node date : String) :
    Deactivates node (.post (deactivationPath node) (deactivationBody node date)) := by
  refine ⟨rfl, ?_, _, rfl, by simp⟩
  exact ⟨deactivationQuery node, Percent.encodeString node, deactivationPath_eq node,
    not_mem_deactivationQuery node, fields_deactivationQuery node, Percent.decode_encodeString node⟩

theorem requests_deactivate (node date : String) (answers : List Answer) :
    (deactivate node date answers).requests =
      [.post (deactivationPath node) (deactivationBody node date)] := by
  cases answers <;> rfl

/-- A path names one node only. -/
theorem Deactivates.unique {node node' : String} {request request' : Request}
    (h : Deactivates node request) (h' : Deactivates node' request')
    (hpath : request.path = request'.path) : node = node' := by
  obtain ⟨-, ⟨params, value, hparams, -, hfields, hvalue⟩, -⟩ := h
  obtain ⟨-, ⟨params', value', hparams', -, hfields', hvalue'⟩, -⟩ := h'
  obtain rfl : params = params' := by
    rw [hparams, hparams'] at hpath
    exact (String.append_right_inj "?").1 hpath
  obtain rfl : value = value' := by simpa [hfields] using hfields'
  exact String.toList_inj.1 (Except.ok.inj (hvalue.symm.trans hvalue'))

/-! ### What arrives -/

theorem location_deactivationPath (e : Https.Endpoint) (node : String) :
    e.location (deactivationPath node) = e.basePath ++ deactivationPath node := by
  rw [Https.Endpoint.location, deactivationPath_eq]
  simp

theorem url_deactivationPath (e : Https.Endpoint) (node : String) :
    e.url (deactivationPath node) =
      "https://" ++ e.authority ++ e.basePath ++ deactivationPath node := by
  rw [Https.Endpoint.url, location_deactivationPath, ← String.toList_inj]
  simp [toString]

theorem targetPath_of_endpoint {version : ApiVersion} {base : String}
    (h : endpoint version = .ok base) :
    (∀ c ∈ base.toList, Https.isPlain c = true ∧ c ≠ '?') ∧
      Https.targetPath base.toList = base.toList := by
  obtain rfl : "/pdb/cmd/v1" = base := by
    cases version <;> simp [endpoint, ApiVersion.commandPath?] at h
    exact h
  have hall : ("/pdb/cmd/v1".toList.all fun c => Https.isPlain c && c ≠ '?') = true := by decide
  exact ⟨fun c hc => by simpa using List.all_eq_true.1 hall c hc, by decide⟩

/-- The server is asked for the path that was sent. -/
theorem line_send_deactivationPath {version : ApiVersion} {e : Https.Endpoint}
    (he : endpoint version = .ok e.basePath) (node : String) (body : Json) :
    (e.send (.post (deactivationPath node) body)).line =
      "POST " ++ e.basePath ++ deactivationPath node ++ " HTTP/1.1" := by
  obtain ⟨hplain, hresolved⟩ := targetPath_of_endpoint he
  have hlocation : (e.location (deactivationPath node)).toList =
      e.basePath.toList ++ '?' :: (deactivationQuery node).toList := by
    rw [location_deactivationPath, deactivationPath_eq]
    simp
  have htarget : Https.target (e.location (deactivationPath node)).toList =
      (e.basePath ++ deactivationPath node).toList := by
    rw [hlocation, Https.target_query hplain hresolved fun c => isPlain_of_mem_deactivationQuery,
      ← hlocation, location_deactivationPath]
  rw [Https.Endpoint.send, Request.post]
  dsimp only
  rw [htarget, String.ofList_toList, ← String.toList_inj]
  simp [Method.token, toString]

/-- The body is read back as it was sent. -/
theorem run_text_deactivationBody (node date : String) :
    Json.Decoder.value.run (deactivationBody node date).text =
      some (deactivationBody node date) := by
  have hnumbers : ∀ n ∈ (deactivationBody node date).numbers, n.IsPreserved := by
    simp [deactivationBody, Json.numbers, Json.numbersFields]
  have hdepth : (deactivationBody node date).depth = 1 := rfl
  have hmerged : (deactivationBody node date).mergeKeys = deactivationBody node date := by
    simp [deactivationBody, Json.mergeKeys, Json.mergeFieldValues, Json.mergeFields, Json.setField]
  obtain ⟨w, hparse, hvalue⟩ := Json.exists_parse_text hnumbers (by omega)
  rw [Json.Decoder.run, hparse]
  change (w.value? Json.nestingLimit).map Json.mergeKeys = _
  rw [hvalue, Option.map_some, hmerged]

/-! ### The whole -/

/-- **A deactivation cannot be redirected.**  Whatever text the name of a node is, its deactivation
is one request, which names this node and nothing else.  Its path is put behind that of the endpoint
without a slash, and the server of a command endpoint receives the same path and the same body.
Another node has another path. -/
theorem deactivate_not_redirected (node date : String) (answers : List Answer) :
    ∃ request, (deactivate node date answers).requests = [request] ∧ Deactivates node request ∧
      (∀ e : Https.Endpoint,
        e.url request.path = "https://" ++ e.authority ++ e.basePath ++ request.path) ∧
      (∀ version, ∀ e : Https.Endpoint, endpoint version = .ok e.basePath →
        (e.send request).line = "POST " ++ e.basePath ++ request.path ++ " HTTP/1.1" ∧
          Json.Decoder.value.run (e.send request).body = request.body) ∧
      ∀ node' date' answers' request', (deactivate node' date' answers').requests = [request'] →
        request'.path = request.path → node' = node := by
  refine ⟨_, requests_deactivate node date answers, deactivates_post node date,
    fun e => url_deactivationPath e node, fun version e he => ?_,
    fun node' date' answers' request' hrequest hpath => ?_⟩
  · exact ⟨line_send_deactivationPath he node _, run_text_deactivationBody node date⟩
  · rw [requests_deactivate, List.singleton_inj] at hrequest
    subst hrequest
    exact (deactivates_post node' date').unique (deactivates_post node date) hpath

/-- A node whose name looks like another deactivation. -/
theorem deactivate_forged :
    let node := "a&certname=b#é"
    let e : Https.Endpoint := ⟨"db:8081", "/pdb/cmd/v1"⟩
    endpoint .v4 = .ok e.basePath ∧
      deactivationPath node =
        "?certname=a%26certname%3Db%23%C3%A9&command=deactivate_node&version=3" ∧
      (e.send (.post (deactivationPath node) (deactivationBody node "2024-01-31"))).line =
        "POST /pdb/cmd/v1" ++ deactivationPath node ++ " HTTP/1.1" ∧
      deactivationPath "b" ≠ deactivationPath node := by
  intro node e
  have hendpoint : endpoint .v4 = .ok e.basePath := rfl
  obtain ⟨request, hrequest, -, -, harrives, hunique⟩ :=
    deactivate_not_redirected node "2024-01-31" []
  obtain rfl := List.singleton_inj.1 hrequest
  refine ⟨hendpoint, by decide, (harrives .v4 e hendpoint).1, fun hpath => ?_⟩
  have hnode : "b" = node := hunique "b" "2024-01-31" [] _ rfl hpath
  exact absurd hnode (by decide)

end Command

end

end NodeInventory
