import NodeInventory.Proofs.Json.RoundTrip
import NodeInventory.Proofs.Paging.Run
import NodeInventory.Proofs.Query.Text
import NodeInventory.Proofs.Text.Percent
import NodeInventory.Query
import Mathlib.Data.List.Forall2

/-!
# The paths of requests for pages

The path of a request for a page is an endpoint, a `?` and a query string.  The query string has the
query, the ordering and the window as its fields (`Parameters.Asks`), and nothing else:
percent-encoded text has no character that would end or begin a field.

* `Parameters.parts_eq` : the parameters in writing, by their names and their texts;
* `Parameters.asks_pagePath` : the fields of the path of a page;
* `Parameters.Asks.unique` : a path asks for one thing only;
* `Parameters.pagePath_unambiguous` : both, and what the requests of a fetch ask for.
-/

namespace NodeInventory

open Text

/-! ### The window of a page -/

namespace Paging

/-- The window of a page in writing. -/
def windowText (limit offset : ℕ) : String :=
  "limit" ++ "=" ++ toString limit ++ "&" ++ ("offset" ++ "=" ++ toString offset)

theorem pagePath_eq (path : String) (limit offset : ℕ) :
    pagePath path limit offset =
      path ++ (if '?' ∈ path.toList then "&" else "?") ++ windowText limit offset := by
  rw [← String.toList_inj]
  by_cases h : '?' ∈ path.toList <;> simp [pagePath, windowText, h, toString]

theorem fields_windowText (limit offset : ℕ) : QueryString.fields (windowText limit offset) =
    [some ("limit", toString limit), some ("offset", toString offset)] := by
  have hlimit := QueryString.fields_field (by decide : '&' ∉ "limit".toList) (by decide)
    (QueryString.not_mem_toString (by decide) limit)
  have hoffset := QueryString.fields_field (by decide : '&' ∉ "offset".toList) (by decide)
    (QueryString.not_mem_toString (by decide) offset)
  rw [windowText, QueryString.fields_append, hlimit, hoffset]
  rfl

theorem not_mem_windowText (limit offset : ℕ) : '?' ∉ (windowText limit offset).toList := by
  have hlimit := QueryString.not_mem_toString (by decide : '?'.isDigit = false) limit
  have hoffset := QueryString.not_mem_toString (by decide : '?'.isDigit = false) offset
  simp only [windowText, String.toList_append, List.mem_append, hlimit, hoffset]
  decide

end Paging

/-! ### The texts of the parameters -/

namespace OrderBy

/-- The documented form of a field to sort by. -/
def form (o : OrderBy) : Json :=
  .object [("field", .string o.field), ("order", .string (match o.direction with
    | .ascending => "asc"
    | .descending => "desc"))]

theorem listToJson_eq (order : List OrderBy) : listToJson order = .array (order.map form) := by
  have hform : toJson = form := by
    funext o
    obtain ⟨field, direction⟩ := o
    cases direction <;> rfl
  rw [listToJson, hform]

theorem form_injective : Function.Injective form := by
  rintro ⟨field, direction⟩ ⟨field', direction'⟩ h
  cases direction <;> cases direction' <;> simp_all [form]

theorem numbersItems_map_form (order : List OrderBy) : Json.numbersItems (order.map form) = [] := by
  induction order with
  | nil => rfl
  | cons o order ih => simpa [Json.numbersItems, form, Json.numbers, Json.numbersFields] using ih

theorem depthItems_map_form (order : List OrderBy) : Json.depthItems (order.map form) ≤ 1 := by
  induction order with
  | nil => exact Nat.zero_le 1
  | cons o order ih => simpa [Json.depthItems, form, Json.depth, Json.depthFields] using ih

theorem eq_of_text_map_form_eq {order order' : List OrderBy}
    (h : (Json.array (order.map form)).text = (Json.array (order'.map form)).text) :
    order = order' := by
  have hform : ∀ order : List OrderBy, (Json.array (order.map form)).numbers = [] ∧
      (Json.array (order.map form)).depth ≤ 127 := by
    intro order
    have hdepth := depthItems_map_form order
    refine ⟨numbersItems_map_form order, ?_⟩
    rw [Json.depth]
    omega
  refine List.map_injective_iff.2 form_injective (Json.array.inj (Json.eq_of_text_eq ?_ ?_ ?_ ?_ h))
  · simp [(hform order).1]
  · exact (hform order).2
  · simp [(hform order').1]
  · exact (hform order').2

end OrderBy

namespace Parameters

/-- The names of the parameters that a request has, each with the JSON text of its value: the query
as it is, and the ordering as a list of `{"field": …, "order": …}`. -/
def texts (p : Parameters) : List (String × String) :=
  (match p.query with
    | some q => [("query", q.toJson.text)]
    | none => []) ++
  (match p.order with
    | [] => []
    | order => [(p.version.orderParameter, (Json.array (order.map OrderBy.form)).text)])

/-- A path that asks for an endpoint with the parameters `p`, and for `limit` rows from an offset
on: behind the `?`, the only one after the endpoint, stand the fields of `p`, their values
percent-encoded, and the two of the window, and no others. -/
def Asks (p : Parameters) (endpoint : String) (limit offset : ℕ) (path : String) : Prop :=
  ∃ params own, path = endpoint ++ "?" ++ params ∧ '?' ∉ params.toList ∧
    QueryString.fields params =
      (own ++ [("limit", toString limit), ("offset", toString offset)]).map some ∧
    List.Forall₂ (fun field text =>
      field.1 = text.1 ∧ Percent.decode field.2.toList = .ok text.2.toList) own p.texts

theorem parts_eq (p : Parameters) : p.parts = p.texts.map fun t => parameter t.1 t.2 := by
  obtain ⟨version, query, order⟩ := p
  cases query <;> cases order <;>
    simp [parts, texts, Query.write_eq_write_toJson, Json.text, OrderBy.listToJson_eq]

theorem eq_of_texts_eq {version : ApiVersion} {query query' : Option Query}
    {order order' : List OrderBy}
    (h : texts ⟨version, query, order⟩ = texts ⟨version, query', order'⟩) :
    query.map Query.text = query'.map Query.text ∧ order = order' := by
  have hname : "query" ≠ version.orderParameter := by cases version <;> decide
  cases query <;> cases query' <;> cases order <;> cases order' <;>
    simp only [texts, List.nil_append, List.append_nil, List.cons_append, List.cons.injEq,
      Prod.mk.injEq, hname, hname.symm, true_and, and_true, false_and, and_false,
      reduceCtorEq] at h
  · exact ⟨rfl, rfl⟩
  · exact ⟨rfl, OrderBy.eq_of_text_map_form_eq h⟩
  · exact ⟨congrArg some h, rfl⟩
  · exact ⟨congrArg some h.1, OrderBy.eq_of_text_map_form_eq h.2⟩

theorem not_mem_name {p : Parameters} {t : String × String} (ht : t ∈ p.texts) {c : Char}
    (hc : c ∈ ['&', '=', '?']) : c ∉ t.1.toList := by
  simp only [List.mem_cons, List.not_mem_nil, or_false] at hc
  obtain ⟨version, query, order⟩ := p
  have hquery : c ∉ "query".toList := by
    rcases hc with rfl | rfl | rfl <;> decide
  have horder : c ∉ version.orderParameter.toList := by
    rcases hc with rfl | rfl | rfl <;> cases version <;> decide
  cases query <;> cases order <;> simp only [texts, List.nil_append, List.append_nil,
    List.cons_append, List.mem_cons, List.not_mem_nil, or_false] at ht
  · subst ht
    exact horder
  · subst ht
    exact hquery
  · rcases ht with rfl | rfl
    · exact hquery
    · exact horder

/-- The fields of the parameters in writing. -/
def fields (p : Parameters) : List (String × String) :=
  p.texts.map fun t => (t.1, Percent.encodeString t.2)

theorem fields_parameter {p : Parameters} {t : String × String} (ht : t ∈ p.texts) :
    QueryString.fields (parameter t.1 t.2) = [some (t.1, Percent.encodeString t.2)] :=
  QueryString.fields_field (not_mem_name ht (by decide)) (not_mem_name ht (by decide))
    (Percent.not_mem_encodeString (by decide) _)

theorem fields_encode {p : Parameters} (hp : p.texts ≠ []) :
    QueryString.fields p.encode = p.fields.map some := by
  have hparts : p.parts ≠ [] := by simpa [parts_eq] using hp
  have hfields : ∀ t ∈ p.texts, QueryString.fields (parameter t.1 t.2) =
      [some (t.1, Percent.encodeString t.2)] := fun t ht => fields_parameter ht
  rw [encode, QueryString.fields_intercalate hparts, parts_eq, List.flatMap_map,
    List.flatMap_congr hfields, ← List.map_eq_flatMap, fields, List.map_map]
  rfl

theorem not_mem_encode (p : Parameters) : '?' ∉ p.encode.toList := by
  refine QueryString.not_mem_intercalate (by decide) fun part hpart => ?_
  rw [parts_eq] at hpart
  obtain ⟨t, ht, rfl⟩ := List.mem_map.1 hpart
  have hname : '?' ∉ t.1.toList := not_mem_name ht (by decide)
  have hvalue := Percent.not_mem_encodeString (by decide : '?' ∈ ['&', '=', '?']) t.2
  simp [parameter, hname, hvalue]

theorem encode_eq_empty_iff {p : Parameters} : p.encode = "" ↔ p.texts = [] := by
  constructor
  · intro h
    by_contra hp
    -- an empty query string has one part, which is no field
    have hfields := fields_encode hp
    rw [h] at hfields
    have hnone : none ∈ p.fields.map some := by
      rw [← hfields]
      decide
    simp at hnone
  · intro h
    simp [encode, parts_eq, h]

/-! ### The path of a page -/

/-- The path of a page asks for the parameters and for the window. -/
theorem asks_pagePath (p : Parameters) {endpoint : String} (h : '?' ∉ endpoint.toList)
    (limit offset : ℕ) :
    p.Asks endpoint limit offset (Paging.pagePath (p.path endpoint) limit offset) := by
  have htexts : List.Forall₂ (fun field text : String × String =>
      field.1 = text.1 ∧ Percent.decode field.2.toList = .ok text.2.toList) p.fields p.texts := by
    rw [fields, List.forall₂_map_left_iff, List.forall₂_same]
    intro t _
    exact ⟨rfl, Percent.decode_encodeString t.2⟩
  by_cases hp : p.texts = []
  · have hpath : p.path endpoint = endpoint := by simp [path, encode_eq_empty_iff.2 hp]
    refine ⟨Paging.windowText limit offset, p.fields, ?_, Paging.not_mem_windowText _ _, ?_, htexts⟩
    · rw [hpath, Paging.pagePath_eq, if_neg h]
    · rw [Paging.fields_windowText, fields, hp]
      rfl
  · have hpath : p.path endpoint = endpoint ++ "?" ++ p.encode := by
      simp [path, mt encode_eq_empty_iff.1 hp]
    have hquestion : '?' ∈ (endpoint ++ "?" ++ p.encode).toList := by simp
    refine ⟨p.encode ++ "&" ++ Paging.windowText limit offset, p.fields, ?_, ?_, ?_, htexts⟩
    · rw [hpath, Paging.pagePath_eq, if_pos hquestion]
      simp only [String.append_assoc]
    · simp only [String.toList_append, List.mem_append, not_mem_encode, Paging.not_mem_windowText]
      decide
    · rw [QueryString.fields_append, fields_encode hp, Paging.fields_windowText, List.map_append]
      rfl

/-- A path asks for one thing only. -/
theorem Asks.unique {p p' : Parameters} {endpoint endpoint' path : String}
    {limit limit' offset offset' : ℕ} (he : '?' ∉ endpoint.toList)
    (h : p.Asks endpoint limit offset path) (h' : p'.Asks endpoint' limit' offset' path) :
    endpoint = endpoint' ∧ p.texts = p'.texts ∧ limit = limit' ∧ offset = offset' := by
  obtain ⟨params, own, rfl, hparams, hfields, htexts⟩ := h
  obtain ⟨params', own', hpath, hparams', hfields', htexts'⟩ := h'
  -- the `?` behind the endpoint is the only one in the path
  have hcut : endpoint.toList = endpoint'.toList ∧ params.toList = params'.toList := by
    have hlist := congrArg String.toList hpath
    simp only [String.toList_append, List.append_assoc] at hlist
    have := (List.append_cons_inj_of_notMem he hparams).1 hlist
    exact ⟨this.1, this.2.2⟩
  obtain rfl := String.toList_inj.1 hcut.1
  obtain rfl := String.toList_inj.1 hcut.2
  rw [hfields, List.map_inj_right fun _ _ => Option.some.inj] at hfields'
  obtain ⟨rfl, hwindow⟩ := List.append_inj' hfields' rfl
  have hfunctional : Relator.RightUnique fun field text : String × String =>
      field.1 = text.1 ∧ Percent.decode field.2.toList = .ok text.2.toList := by
    rintro field text text' ⟨hname, htext⟩ ⟨hname', htext'⟩
    rw [htext] at htext'
    exact Prod.ext (hname.symm.trans hname') (String.toList_inj.1 (Except.ok.inj htext'))
  simp only [List.cons.injEq, Prod.mk.injEq, true_and, and_true] at hwindow
  exact ⟨rfl, List.right_unique_forall₂' hfunctional htexts htexts',
    QueryString.toString_injective hwindow.1, QueryString.toString_injective hwindow.2⟩

theorem Asks.unique_query {version : ApiVersion} {query query' : Option Query}
    {order order' : List OrderBy} {endpoint path : String} {limit limit' offset offset' : ℕ}
    (he : '?' ∉ endpoint.toList) (h : Asks ⟨version, query, order⟩ endpoint limit offset path)
    (h' : Asks ⟨version, query', order'⟩ endpoint limit' offset' path) :
    query.map Query.text = query'.map Query.text ∧ order = order' ∧ limit = limit' ∧
      offset = offset' := by
  obtain ⟨-, htexts, hlimit, hoffset⟩ := h.unique he h'
  obtain ⟨hquery, horder⟩ := eq_of_texts_eq htexts
  exact ⟨hquery, horder, hlimit, hoffset⟩

/-! ### The requests of a fetch -/

theorem requests_fetchAll {α : Type} (d : Json.Decoder α) (step : ℕ) (path : String)
    (answers : List Answer) {k : ℕ} {request : Request}
    (h : (Paging.fetchAll d step path answers).requests[k]? = some request) :
    request = .get (Paging.pagePath path (max step 1) (k * max step 1)) := by
  obtain ⟨pages, result, -, hrun, -⟩ := Paging.exists_fetchAll_eq d step path answers
  rw [hrun, List.getElem?_map] at h
  obtain ⟨k', hk', rfl⟩ := Option.map_eq_some_iff.1 h
  obtain ⟨-, rfl⟩ := List.getElem?_eq_some_iff.1 hk'
  rw [List.getElem_range, Paging.get_pagePath]

/-- **The paths of requests are unambiguous**, whatever the query, the ordering and the window, if
the endpoint has no `?`.  The path of a page asks for just these; the `k`-th request of a fetch asks
for page `k`; and two paths are the same only if they ask for the same. -/
theorem pagePath_unambiguous (p : Parameters) {endpoint : String} (h : '?' ∉ endpoint.toList) :
    (∀ limit offset,
      p.Asks endpoint limit offset (Paging.pagePath (p.path endpoint) limit offset)) ∧
    (∀ (α : Type) (d : Json.Decoder α) (step : ℕ) (answers : List Answer) (k : ℕ)
      (request : Request),
      (Paging.fetchAll d step (p.path endpoint) answers).requests[k]? = some request →
        ∃ path, request = .get path ∧
          p.Asks endpoint (max step 1) (k * max step 1) path) ∧
    ∀ (p' : Parameters) (endpoint' : String) (limit limit' offset offset' : ℕ),
      '?' ∉ endpoint'.toList →
      Paging.pagePath (p.path endpoint) limit offset =
        Paging.pagePath (p'.path endpoint') limit' offset' →
      endpoint = endpoint' ∧ p.texts = p'.texts ∧ limit = limit' ∧ offset = offset' := by
  refine ⟨p.asks_pagePath h, fun α d step answers k request hrequest => ?_,
    fun p' endpoint' limit limit' offset offset' h' heq => ?_⟩
  · exact ⟨_, requests_fetchAll d step _ answers hrequest, p.asks_pagePath h _ _⟩
  · exact (p.asks_pagePath h limit offset).unique h (heq ▸ p'.asks_pagePath h' limit' offset')

/-- A query and an ordering whose texts look like parameters. -/
def forged (title : String) : Parameters :=
  ⟨.v4, some (.comparison "=" "title?limit=1" (.string title)), [.descending "x&offset=9"]⟩

/-- They stay inside their own parameters, and another title gives another path. -/
theorem pagePath_forged :
    '?' ∉ "resources".toList ∧
    (forged "a&limit=1").Asks "resources" 20 40
      (Paging.pagePath ((forged "a&limit=1").path "resources") 20 40) ∧
    (∃ path, (Paging.fetchAll Json.Decoder.value 0 ((forged "a&limit=1").path "resources")
        []).requests = [.get path] ∧ (forged "a&limit=1").Asks "resources" 1 0 path) ∧
    Paging.pagePath ((forged "a&limit=1").path "resources") 20 40 ≠
      Paging.pagePath ((forged "a").path "resources") 20 40 := by
  obtain ⟨hasks, hrequests, hunique⟩ := pagePath_unambiguous (forged "a&limit=1")
    (by decide : '?' ∉ "resources".toList)
  obtain ⟨path, hget, hpath⟩ := hrequests Json Json.Decoder.value 0 [] 0 _ rfl
  refine ⟨by decide, hasks 20 40, ⟨path, by rw [← hget]; rfl, hpath⟩, fun heq => ?_⟩
  have htexts := (hunique (forged "a") "resources" 20 20 40 40 (by decide) heq).2.1
  exact absurd htexts (by decide)

end Parameters

end NodeInventory
