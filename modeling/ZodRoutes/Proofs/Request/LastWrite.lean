/-
What the buckets hold after a list of parameters.

Parameters write their expressions one after the other, each into the bucket of its location.  What a
bucket holds in the end depends on two things only: its names stand where they are first carried, and
under each name is the expression of the last parameter carried there.

The first parameter without an expression ends the writing, so what stands behind it does not matter: its error,
which carries its name and location, is the answer.
-/
import Mathlib.Data.Finset.Card
import Mathlib.Data.Finset.Dedup
import ZodRoutes.Proofs.Entries
import ZodRoutes.Request.Buckets

namespace ZodRoutes.Request

open Schema (Kind)
open Steps (bind_eq_ok)

/-- The names carried at a location, in order. -/
def namesAt (location : Location) (ps : List Parameter) : List String :=
  (ps.filter (·.location == location)).map (·.name)

/-- The parameters carried under a name of a location, in order. -/
def under (location : Location) (name : String) (ps : List Parameter) : List Parameter :=
  ps.filter fun p => p.location == location && p.name == name

/-- The expression of the last parameter carried under a name of a location. -/
def lastUnder? (location : Location) (name : String) (ps : List Parameter) : Option String :=
  (under location name ps).getLast?.bind (·.expression.toOption)

/-- What the parameters write into the bucket of a location, in order. -/
def writes (location : Location) (ps : List Parameter) : List (String × String) :=
  (ps.filter (·.location == location)).filterMap fun p => p.expression.toOption.map (p.name, ·)

/-- Every parameter has an expression. -/
def AllExpressible (ps : List Parameter) : Prop :=
  ∀ p ∈ ps, ∃ text, p.expression = .ok text

variable {location : Location} {name : String} {ps : List Parameter} {p : Parameter}

theorem namesAt_append (front back : List Parameter) :
    namesAt location (front ++ back) = namesAt location front ++ namesAt location back := by
  simp [namesAt]

theorem under_append (front back : List Parameter) :
    under location name (front ++ back) = under location name front ++ under location name back := by
  simp [under]

theorem names_writes (h : AllExpressible ps) :
    Entries.names (writes location ps) = namesAt location ps := by
  induction ps with
  | nil => rfl
  | cons p rest ih =>
      obtain ⟨text, htext⟩ := h p (by simp)
      have hrest := ih fun q hq => h q (List.mem_cons_of_mem _ hq)
      unfold writes namesAt at hrest ⊢
      by_cases hlocation : p.location == location
      · rw [List.filter_cons, if_pos hlocation, List.filterMap_cons, htext, List.map_cons, ← hrest]
        rfl
      · rw [List.filter_cons, if_neg hlocation, hrest]

/-- **The last parameter carried under a name is the one that counts.** -/
theorem get?_ofList_writes (h : AllExpressible ps) :
    Entries.get? (Entries.ofList (writes location ps)) name = lastUnder? location name ps := by
  unfold lastUnder?
  induction ps using List.reverseRecOn with
  | nil => rfl
  | append_singleton front p ih =>
      obtain ⟨text, htext⟩ := h p (by simp)
      have hfront := ih fun q hq => h q (List.mem_append_left _ hq)
      have hwrites : writes location (front ++ [p]) =
          writes location front ++ writes location [p] := by simp [writes]
      rw [hwrites, under_append]
      by_cases hlocation : p.location = location
      · have hlast : writes location [p] = [(p.name, text)] := by simp [writes, hlocation, htext, Except.toOption]
        rw [hlast, Entries.ofList_concat]
        by_cases hname : p.name = name
        · have hunder : under location name [p] = [p] := by simp [under, hlocation, hname]
          rw [hname, Entries.get?_insert_self, hunder, List.getLast?_concat]
          simp [htext, Except.toOption]
        · have hunder : under location name [p] = [] := by simp [under, hname]
          rw [Entries.get?_insert_of_ne _ _ (Ne.symm hname), hunder, List.append_nil, hfront]
      · have hlast : writes location [p] = [] := by simp [writes, hlocation]
        have hunder : under location name [p] = [] := by simp [under, hlocation]
        rw [hlast, hunder, List.append_nil, List.append_nil, hfront]

theorem lastUnder?_eq_some {text : String} (h : lastUnder? location name ps = some text) :
    ∃ last, (under location name ps).getLast? = some last ∧ last.expression = .ok text := by
  obtain ⟨last, hlast, htext⟩ := Option.bind_eq_some_iff.mp h
  refine ⟨last, hlast, ?_⟩
  cases hexpression : last.expression with
  | error e => simp [hexpression, Except.toOption] at htext
  | ok other => simpa [hexpression, Except.toOption] using htext

/-- Parameters that do not all have an expression have a first one that has none. -/
theorem exists_first_error (h : ¬ AllExpressible ps) :
    ∃ front p back error, ps = front ++ p :: back ∧ AllExpressible front ∧ p.expression = .error error := by
  induction ps with
  | nil => exact absurd (fun p hp => by simp at hp) h
  | cons p rest ih =>
      cases hp : p.expression with
      | error error => exact ⟨[], p, rest, error, rfl, by simp [AllExpressible], hp⟩
      | ok text =>
          have hrest : ¬ AllExpressible rest := by
            intro hall
            exact h (List.forall_mem_cons.mpr ⟨⟨text, hp⟩, hall⟩)
          obtain ⟨front, q, back, error, hsplit, hfront, hq⟩ := ih hrest
          refine ⟨p :: front, q, back, error, by rw [hsplit, List.cons_append], ?_, hq⟩
          exact List.forall_mem_cons.mpr ⟨⟨text, hp⟩, hfront⟩

/-- The error of a parameter carries its name and its location. -/
theorem names_of_expression_error {error : ParameterError} (h : p.expression = .error error) :
    error.name = p.name ∧ error.location = p.location := by
  unfold Parameter.expression at h
  split at h
  · cases h
  · cases h
    exact ⟨rfl, rfl⟩

namespace Buckets

variable {buckets result : Buckets}

/-- Buckets are what they hold at every location. -/
theorem ext_bucket (h : ∀ location, buckets.bucket location = result.bucket location) :
    buckets = result := by
  obtain ⟨path, query, header, body⟩ := buckets
  obtain ⟨path', query', header', body'⟩ := result
  have hpath : path = path' := h .path
  have hquery : query = query' := h .query
  have hheader : header = header' := h .header
  have hbody : body = body' := h .body
  rw [hpath, hquery, hheader, hbody]

/-- Every parameter of a list that has buckets has an expression, and writes it into its bucket. -/
theorem addParameters_eq_ok (h : buckets.addParameters ps = .ok result) :
    AllExpressible ps ∧ ∀ location, result.bucket location =
      (writes location ps).foldl (fun entries pair => Entries.insert entries pair.1 pair.2)
        (buckets.bucket location) := by
  induction ps generalizing buckets with
  | nil =>
      cases h
      exact ⟨by simp [AllExpressible], fun location => rfl⟩
  | cons p rest ih =>
      rw [addParameters] at h
      obtain ⟨text, htext, h⟩ := bind_eq_ok.mp h
      obtain ⟨hrest, hbuckets⟩ := ih h
      refine ⟨?_, ?_⟩
      · intro q hq
        rcases List.mem_cons.mp hq with rfl | hq
        · exact ⟨text, htext⟩
        · exact hrest q hq
      · intro location
        rw [hbuckets, bucket_insert]
        unfold writes
        by_cases hlocation : location = p.location
        · subst hlocation
          simp [htext, Except.toOption]
        · simp [hlocation, Ne.symm hlocation]

theorem allExpressible_of_ofParameters (h : ofParameters ps = .ok result) : AllExpressible ps :=
  (addParameters_eq_ok h).1

/-- A bucket holds what the parameters write into it. -/
theorem bucket_ofParameters (h : ofParameters ps = .ok result) (location : Location) :
    result.bucket location = Entries.ofList (writes location ps) := by
  rw [(addParameters_eq_ok h).2 location]
  cases location <;> rfl

/-- An entry of a bucket is the expression of a parameter. -/
theorem exists_of_mem_bucket (h : ofParameters ps = .ok result) {location : Location} {entry : String × String}
    (hentry : entry ∈ result.bucket location) : ∃ p ∈ ps, p.expression = .ok entry.2 := by
  rw [bucket_ofParameters h] at hentry
  obtain ⟨p, hp, hwritten⟩ := List.mem_filterMap.mp (Entries.mem_of_mem_ofList hentry)
  obtain ⟨hmem, -⟩ := List.mem_filter.mp hp
  obtain ⟨written, hsuccess⟩ := allExpressible_of_ofParameters h p hmem
  rw [hsuccess] at hwritten
  cases hwritten
  exact ⟨p, hmem, hsuccess⟩

/-- **The names of a bucket stand where they are first carried.** -/
theorem names_ofParameters (h : ofParameters ps = .ok result) (location : Location) :
    Entries.names (result.bucket location) = Entries.distinct (namesAt location ps) := by
  rw [bucket_ofParameters h, Entries.names_ofList, names_writes (allExpressible_of_ofParameters h)]

theorem nodup_names_ofParameters (h : ofParameters ps = .ok result) (location : Location) :
    (Entries.names (result.bucket location)).Nodup := by
  rw [names_ofParameters h]
  exact Entries.nodup_distinct _

/-- **A bucket holds the expression of the last parameter carried under a name.** -/
theorem get?_ofParameters (h : ofParameters ps = .ok result) (location : Location) (name : String) :
    result.get? location name = lastUnder? location name ps := by
  unfold get?
  rw [bucket_ofParameters h, get?_ofList_writes (allExpressible_of_ofParameters h)]

/-- Parameters that have expressions all have buckets. -/
theorem ofParameters_ok (h : AllExpressible ps) : ∃ result, ofParameters ps = .ok result := by
  have hany : ∀ buckets : Buckets, ∃ result, buckets.addParameters ps = .ok result := by
    induction ps with
    | nil => exact fun buckets => ⟨buckets, rfl⟩
    | cons p rest ih =>
        intro buckets
        obtain ⟨text, htext⟩ := h p (by simp)
        obtain ⟨result, hresult⟩ := ih (fun q hq => h q (List.mem_cons_of_mem _ hq))
          (buckets.insert p.location p.name text)
        refine ⟨result, ?_⟩
        rw [addParameters, htext]
        exact hresult
  exact hany empty

/-- **Lists of the same names with the same last expressions have the same buckets**, and no others do. -/
theorem ofParameters_eq_iff {ps' : List Parameter} {result' : Buckets} (h : ofParameters ps = .ok result)
    (h' : ofParameters ps' = .ok result') :
    result = result' ↔
      (∀ location, Entries.distinct (namesAt location ps) = Entries.distinct (namesAt location ps')) ∧
        ∀ location name, lastUnder? location name ps = lastUnder? location name ps' := by
  constructor
  · rintro rfl
    refine ⟨fun location => ?_, fun location name => ?_⟩
    · rw [← names_ofParameters h, names_ofParameters h']
    · rw [← get?_ofParameters h, get?_ofParameters h']
  · rintro ⟨hnames, hlast⟩
    refine ext_bucket fun location => Entries.ext_of_nodup (nodup_names_ofParameters h location) ?_ fun name => ?_
    · rw [names_ofParameters h, names_ofParameters h', hnames]
    · have hget := get?_ofParameters h location name
      have hget' := get?_ofParameters h' location name
      unfold get? at hget hget'
      rw [hget, hget', hlast]

/-- The first parameter without an expression ends the writing, whatever stands behind it. -/
theorem addParameters_error {front back : List Parameter} {error : ParameterError} (hfront : AllExpressible front)
    (hp : p.expression = .error error) : buckets.addParameters (front ++ p :: back) = .error error := by
  induction front generalizing buckets with
  | nil =>
      rw [List.nil_append, addParameters, hp]
      rfl
  | cons q rest ih =>
      obtain ⟨⟨text, htext⟩, hrest⟩ := List.forall_mem_cons.mp hfront
      rw [List.cons_append, addParameters, htext]
      exact ih hrest

/-! ### How many there are -/

/-- The locations and names that hold an expression, in the order of the buckets. -/
def places (buckets : Buckets) : List (Location × String) :=
  Location.all.flatMap fun location => (Entries.names (buckets.bucket location)).map (location, ·)

theorem length_places (buckets : Buckets) : buckets.places.length = buckets.size := by
  simp [places, Location.all, Entries.names, bucket, size, Nat.add_assoc]

theorem mem_places {buckets : Buckets} :
    (location, name) ∈ buckets.places ↔ name ∈ Entries.names (buckets.bucket location) := by
  have hall : location ∈ Location.all := by cases location <;> decide
  simp only [places, List.mem_flatMap, List.mem_map, Prod.mk.injEq]
  constructor
  · rintro ⟨other, -, key, hkey, rfl, rfl⟩
    exact hkey
  · exact fun hname => ⟨location, hall, name, hname, rfl, rfl⟩

/-- No place is counted twice when the names of every bucket are distinct. -/
theorem nodup_places (h : ∀ location, (Entries.names (buckets.bucket location)).Nodup) :
    buckets.places.Nodup := by
  refine List.nodup_flatMap.mpr ⟨fun location _ => ?_, ?_⟩
  · exact (h location).map fun name other heq => (Prod.mk.inj heq).2
  · have hall : Location.all.Nodup := by decide
    refine hall.imp fun {location other} hne => ?_
    simp only [Function.onFun, List.disjoint_left, List.mem_map]
    rintro _ ⟨name, -, rfl⟩ ⟨key, -, heq⟩
    exact hne (Prod.mk.inj heq).1.symm

/-- **There are as many expressions as there are different locations and names.** -/
theorem size_ofParameters (h : ofParameters ps = .ok result) :
    result.size = (ps.map fun p => (p.location, p.name)).toFinset.card := by
  have hnodup : result.places.Nodup := nodup_places (nodup_names_ofParameters h)
  have hsame : result.places.toFinset = (ps.map fun p => (p.location, p.name)).toFinset := by
    ext ⟨location, name⟩
    rw [List.mem_toFinset, mem_places, names_ofParameters h, Entries.mem_distinct, List.mem_toFinset]
    simp [namesAt, and_comm, and_assoc]
  rw [← hsame, List.toFinset_card_of_nodup hnodup, length_places]

/-! ### The whole partition -/

/-- Buckets partition parameters by location: the names of a bucket are those carried at its location, in the
order in which they are first carried, each with the expression of the last parameter carried under it. -/
structure Partitions (ps : List Parameter) (buckets : Buckets) : Prop where
  names : ∀ location, Entries.FirstOccurrences (namesAt location ps) (Entries.names (buckets.bucket location))
  last : ∀ location, ∀ entry ∈ buckets.bucket location,
    ∃ p, (under location entry.1 ps).getLast? = some p ∧ p.expression = .ok entry.2
  size : buckets.size = (ps.map fun p => (p.location, p.name)).toFinset.card

theorem partitions_ofParameters (h : ofParameters ps = .ok result) : Partitions ps result := by
  refine ⟨fun location => ?_, fun location entry hentry => ?_, size_ofParameters h⟩
  · rw [names_ofParameters h]
    exact Entries.firstOccurrences_distinct _
  · have hget := get?_ofParameters h location entry.1
    rw [Buckets.get?, Entries.get?_of_mem (nodup_names_ofParameters h location) hentry] at hget
    exact lastUnder?_eq_some hget.symm

/-- **Buckets partition the parameters, and the last write wins.**  Parameters that all have expressions have
buckets that partition them; otherwise the first one without an expression is reported, by name and location. -/
theorem ofParameters_partition (ps : List Parameter) :
    (AllExpressible ps → ∃ buckets, ofParameters ps = .ok buckets ∧ Partitions ps buckets) ∧
      (¬ AllExpressible ps → ∃ front p back error, ps = front ++ p :: back ∧ AllExpressible front ∧
        p.expression = .error error ∧ ofParameters ps = .error error ∧ error.name = p.name ∧
        error.location = p.location) := by
  constructor
  · intro h
    obtain ⟨buckets, hbuckets⟩ := ofParameters_ok h
    exact ⟨buckets, hbuckets, partitions_ofParameters hbuckets⟩
  · intro h
    obtain ⟨front, p, back, error, rfl, hfront, hp⟩ := exists_first_error h
    exact ⟨front, p, back, error, rfl, hfront, hp, addParameters_error hfront hp, names_of_expression_error hp⟩

/-- Two names in the query, one of them twice and at a second location in between. -/
def interleavedParameters : List Parameter :=
  [⟨"a", .query, true, Kind.string.plain⟩, ⟨"a", .header, true, Kind.any.plain⟩, ⟨"b", .query, true, Kind.string.plain⟩,
    ⟨"a", .query, false, Kind.integer.plain⟩]

/-- Their buckets: the first name of the query keeps its place and takes the last expression. -/
def interleavedBuckets : Buckets :=
  ⟨[], [("a", "z.string().transform(Number).pipe(z.number().int()).optional()"), ("b", "z.string()")],
    [("a", "z.unknown()")], []⟩

/-- The same parameters behind one that takes no value. -/
def brokenParameters : List Parameter :=
  ⟨"c", .body, true, (Kind.enumeration []).plain⟩ :: interleavedParameters

/-- What is reported of that one. -/
def brokenError : ParameterError := ⟨"c", .body, ⟨.root, .emptyEnum⟩⟩

theorem ofParameters_partition_interleaved :
    (AllExpressible interleavedParameters ∧ ofParameters interleavedParameters = .ok interleavedBuckets ∧
      Partitions interleavedParameters interleavedBuckets) ∧
      ¬ AllExpressible brokenParameters ∧ ofParameters brokenParameters = .error brokenError ∧
      ∃ front p back, brokenParameters = front ++ p :: back ∧ AllExpressible front ∧
        p.expression = .error brokenError ∧ brokenError.name = p.name ∧ brokenError.location = p.location := by
  have hall : AllExpressible interleavedParameters := by
    simp only [AllExpressible, interleavedParameters, List.forall_mem_cons]
    exact ⟨⟨_, rfl⟩, ⟨_, rfl⟩, ⟨_, rfl⟩, ⟨_, rfl⟩, by simp⟩
  have hbroken : ¬ AllExpressible brokenParameters := by
    intro h
    obtain ⟨text, htext⟩ := h _ List.mem_cons_self
    cases htext
  refine ⟨⟨hall, ?_⟩, hbroken, ?_⟩
  · obtain ⟨buckets, hbuckets, hpartitions⟩ := (ofParameters_partition interleavedParameters).1 hall
    have hvalue : ofParameters interleavedParameters = .ok interleavedBuckets := rfl
    cases hvalue.symm.trans hbuckets
    exact ⟨hvalue, hpartitions⟩
  · obtain ⟨front, p, back, error, hsplit, hfront, hp, herror, hnames⟩ :=
      (ofParameters_partition brokenParameters).2 hbroken
    have hvalue : ofParameters brokenParameters = .error brokenError := rfl
    cases hvalue.symm.trans herror
    exact ⟨hvalue, front, p, back, hsplit, hfront, hp, hnames⟩

end Buckets

end ZodRoutes.Request
