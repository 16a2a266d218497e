/-
Reading undoes writing for everything that has a JSON form.

Parameters hold a schema tree, routes hold four buckets of expressions.  Both are records all of whose members
are written, but for the summary of a route that has none.  A bucket is read by writing its names one after the
other, so it comes back as it was where no name stands in it twice, and the buckets of parameters are of this
sort.
-/
import ZodRoutes.Document.Route
import ZodRoutes.Proofs.Request.LastWrite
import ZodRoutes.Proofs.Schema.Codec

namespace ZodRoutes

open Json (Value)
open Schema (Kind Node)

namespace Request

/-- No bucket holds a name twice. -/
def Buckets.Distinct (buckets : Buckets) : Prop :=
  ∀ location, (Entries.names (buckets.bucket location)).Nodup

theorem Buckets.distinct_ofParameters {ps : List Parameter} {buckets : Buckets}
    (h : Buckets.ofParameters ps = .ok buckets) : buckets.Distinct := by
  intro location
  rw [Buckets.bucket_ofParameters h]
  exact Entries.nodup_names_ofList _

theorem Buckets.bucketOfValue?_bucketValue {entries : Entries String} (h : (Entries.names entries).Nodup) :
    Buckets.bucketOfValue? (Buckets.bucketValue entries) = some entries := by
  rw [Buckets.bucketOfValue?, Buckets.bucketValue, Value.obj?, Option.bind_eq_bind, Option.bind_some,
    Option.bind_eq_bind, Steps.mapM_map ?_, Option.bind_some, Entries.ofList_of_nodup h]
  · rfl
  · exact fun entry _ => rfl

theorem Buckets.ofValue?_toValue {buckets : Buckets} (h : buckets.Distinct) :
    Buckets.ofValue? buckets.toValue = some buckets := by
  have hpath := Buckets.bucketOfValue?_bucketValue (h .path)
  have hquery := Buckets.bucketOfValue?_bucketValue (h .query)
  have hheader := Buckets.bucketOfValue?_bucketValue (h .header)
  have hbody := Buckets.bucketOfValue?_bucketValue (h .body)
  simp [Buckets.ofValue?, Buckets.toValue, Value.fields?, Location.all, Location.bucketName, Entries.get?_cons,
    hpath, hquery, hheader, hbody]
  rfl

theorem Parameter.ofValue?_toValue {p : Parameter} (h : p.schema.Distinct) :
    Parameter.ofValue? p.toValue = some p := by
  simp [Parameter.ofValue?, Parameter.toValue, Value.fields?, Entries.get?_cons, Value.str?, Value.name?,
    Schema.Decode.orDefault, Value.bool?, Schema.Node.ofValue?_toValue h]

end Request

namespace Document

open Request (Buckets Parameter)

theorem Route.ofValue?_toValue {route : Route} (h : route.params.Distinct) :
    Route.ofValue? route.toValue = some route := by
  obtain ⟨name, method, path, summary, params⟩ := route
  have hparams := Buckets.ofValue?_toValue h
  cases summary <;>
    simp_all [Route.ofValue?, Route.toValue, Value.fields?, Entries.get?_cons, Value.str?, Value.name?,
      Schema.Decode.orDefault, Route.summaryOfValue?]

/-- **What is written is read back as it was.**  A tree comes back, with its rules, literals, properties and
branches in their order, where its objects name nothing twice; so do a parameter with such a schema and a route
whose buckets name nothing twice. -/
theorem written_reads_back :
    (∀ node : Node, node.Distinct → Node.ofValue? node.toValue = some node) ∧
      (∀ p : Parameter, p.schema.Distinct → Parameter.ofValue? p.toValue = some p) ∧
      ∀ route : Route, route.params.Distinct → Route.ofValue? route.toValue = some route :=
  ⟨fun _ => Schema.Node.ofValue?_toValue, fun _ => Parameter.ofValue?_toValue, fun _ => Route.ofValue?_toValue⟩

/-- An object with a bounded number, a closed set that may be null, and others beside them. -/
def taggedNode : Node :=
  ⟨.object [("id", ⟨.integer, [.min .zero, .pattern "x"], false⟩),
      ("tag", ⟨.enumeration [.str "1", .num (.int 1), .num (.real .zero), .bool true], [], true⟩)]
    ["tag", "id"] (some Kind.any.plain) false, [], false⟩

/-- A query parameter with that schema. -/
def taggedParameter : Parameter := ⟨"tag", .query, true, taggedNode⟩

/-- A route without a summary and with one parameter. -/
def taggedRoute : Route :=
  ⟨"getTag", .get, "/tags/\x7bid\x7d", none, ⟨[("id", "z.string()")], [], [], []⟩⟩

theorem distinct_taggedNode : taggedNode.Distinct := by
  refine .intro ⟨by decide, by decide⟩ fun child hchild => ?_
  simp only [taggedNode, Kind.children, List.map_cons, List.map_nil, Option.toList_some, List.cons_append,
    List.nil_append, List.mem_cons, List.not_mem_nil, or_false] at hchild
  rcases hchild with rfl | rfl | rfl <;> exact .intro trivial (by simp [Kind.plain, Kind.children])

theorem written_reads_back_tagged :
    Node.ofValue? taggedNode.toValue = some taggedNode ∧
      Parameter.ofValue? taggedParameter.toValue = some taggedParameter ∧
      Route.ofValue? taggedRoute.toValue = some taggedRoute := by
  refine ⟨written_reads_back.1 _ distinct_taggedNode, written_reads_back.2.1 _ distinct_taggedNode,
    written_reads_back.2.2 _ fun location => ?_⟩
  cases location <;> decide

end Document

end ZodRoutes
