/-
Two spellings of one schema.

Later versions of the description format spell some keywords differently.  An exclusive bound is a number of
its own instead of a flag beside the inclusive bound, a flag that says no more than its absence goes, and
null is listed among the types instead of being a keyword.  The change of spelling leaves every other keyword
alone, and the groups that it concerns are read as the same: the rules of a bound, and the types together
with whether null is one of them.  So a schema may be spelled either way, at any of its schema objects.
-/
import ZodRoutes.Proofs.Schema.Changed

namespace ZodRoutes.Schema

open Json (Value)
open Reader

/-- The bounds, each with its exclusive variant. -/
def boundPairs : List (String × String) :=
  [("minimum", "exclusiveMinimum"), ("maximum", "exclusiveMaximum")]

/-- One keyword of a schema object is spelled in the later way, the other keywords staying as they are. -/
inductive Respelled (members members' : Members) : Prop
  | exclusiveBound {inclusive exclusive : String} {n : Json.Number} (pair : (inclusive, exclusive) ∈ boundPairs)
      (bound : Entries.get? members inclusive = some (.num n))
      (flag : Entries.get? members exclusive = some (.bool true))
      (dropped : Entries.get? members' inclusive = none)
      (own : Entries.get? members' exclusive = some (.num n))
      (others : Entries.AgreeOff [inclusive, exclusive] members members')
  | inclusiveBound {inclusive exclusive : String} (pair : (inclusive, exclusive) ∈ boundPairs)
      (flag : Entries.get? members exclusive = some (.bool false))
      (dropped : Entries.get? members' exclusive = none)
      (others : Entries.AgreeOff [exclusive] members members')
  | nullableType {name : String} (named : name ≠ "null")
      (type : Entries.get? members "type" = some (.str name))
      (flag : Entries.get? members "nullable" = some (.bool true))
      (listed : Entries.get? members' "type" = some (.arr [.str name, .str "null"]))
      (dropped : Entries.get? members' "nullable" = none)
      (others : Entries.AgreeOff ["type", "nullable"] members members')
  | nullableTypes {names : List String} (named : ∃ name ∈ names, name ≠ "null")
      (type : Entries.get? members "type" = some (.arr (names.map .str)))
      (flag : Entries.get? members "nullable" = some (.bool true))
      (listed : Entries.get? members' "type" = some (.arr (names.map .str ++ [.str "null"])))
      (dropped : Entries.get? members' "nullable" = none)
      (others : Entries.AgreeOff ["type", "nullable"] members members')

variable {members members' : Members} {path : Path} {inclusive exclusive : String}
  {within beyond : Decimal.Double → Rule}

/-! ### Bounds -/

theorem boundPairs_cases (pair : (inclusive, exclusive) ∈ boundPairs) :
    (inclusive = "minimum" ∧ exclusive = "exclusiveMinimum") ∨
      (inclusive = "maximum" ∧ exclusive = "exclusiveMaximum") := by
  simpa [boundPairs] using pair

/-- A bound with a flag that is true is the exclusive bound. -/
theorem boundRules_exclusiveBound {n : Json.Number} (bound : Entries.get? members inclusive = some (.num n))
    (flag : Entries.get? members exclusive = some (.bool true)) (dropped : Entries.get? members' inclusive = none)
    (own : Entries.get? members' exclusive = some (.num n)) :
    boundRules inclusive exclusive within beyond members path =
      boundRules inclusive exclusive within beyond members' path := by
  have hview : Value.double? (.num n) = some n.toDouble := rfl
  unfold boundRules
  rw [keyword?_eq_some.mpr ⟨_, bound, hview⟩, keyword?_eq_none.mpr dropped, flag, own,
    keyword?_eq_some.mpr ⟨_, own, hview⟩]
  rfl

/-- A flag that is false says what its absence says. -/
theorem boundRules_inclusiveBound (bound : Entries.get? members inclusive = Entries.get? members' inclusive)
    (flag : Entries.get? members exclusive = some (.bool false))
    (dropped : Entries.get? members' exclusive = none) :
    boundRules inclusive exclusive within beyond members path =
      boundRules inclusive exclusive within beyond members' path := by
  unfold boundRules keyword?
  rw [bound, flag, dropped]

/-- Schema objects that differ in the keywords of one bound, which is read as the same, have the same rules. -/
theorem rules_of_bound (pair : (inclusive, exclusive) ∈ boundPairs)
    (others : Entries.AgreeOff [inclusive, exclusive] members members')
    (hbound : ∀ within beyond, boundRules inclusive exclusive within beyond members path =
      boundRules inclusive exclusive within beyond members' path) : rules members path = rules members' path := by
  rcases boundPairs_cases pair with ⟨rfl, rfl⟩ | ⟨rfl, rfl⟩
  · exact rules_congr_of_bounds (others.agreeOn (by decide)) (hbound _ _)
      (boundRules_congr (others.agreeOn (by decide)))
  · exact rules_congr_of_bounds (others.agreeOn (by decide)) (boundRules_congr (others.agreeOn (by decide)))
      (hbound _ _)

theorem alike_of_bound (pair : (inclusive, exclusive) ∈ boundPairs)
    (others : Entries.AgreeOff [inclusive, exclusive] members members')
    (hbound : ∀ path within beyond, boundRules inclusive exclusive within beyond members path =
      boundRules inclusive exclusive within beyond members' path) : Alike Eq members members' := by
  have hothers : Entries.AgreeOff ["minimum", "exclusiveMinimum", "maximum", "exclusiveMaximum"]
      members members' := by
    rcases boundPairs_cases pair with ⟨rfl, rfl⟩ | ⟨rfl, rfl⟩ <;> exact others.mono (by decide)
  refine alike_of_agree (hothers _ (by decide)) (hothers.agreeOn (by decide)) ?_ ?_ ?_ ?_
  · exact fun _ => typesAndNull_congr (hothers.agreeOn (by decide))
  · exact fun path => rules_of_bound pair others (hbound path)
  · exact fun _ => allowed_congr (hothers.agreeOn (by decide))
  · exact fun _ => requires_congr (hothers.agreeOn (by decide))

/-! ### Null beside the types -/

theorem typesAndNull_of_listed {value : Value} {listed : List String}
    (type : Entries.get? members "type" = some value) (view : listedTypes? value = some listed) :
    typesAndNull members path = (do
      let isNullable ← nullable members path
      return ((Types.ofListed listed).names, (Types.ofListed listed).withNull || isNullable)) := by
  unfold typesAndNull types
  rw [keyword?_eq_some.mpr ⟨_, type, view⟩]
  rfl

theorem nullable_true (flag : Entries.get? members "nullable" = some (.bool true)) :
    nullable members path = .ok true := by
  unfold nullable
  rw [keyword?_eq_some.mpr ⟨_, flag, Value.bool?_eq_some.mpr rfl⟩]
  rfl

theorem nullable_absent (dropped : Entries.get? members "nullable" = none) :
    nullable members path = .ok false := by
  unfold nullable
  rw [keyword?_eq_none.mpr dropped]
  rfl

/-- Null, listed behind other names, is kept apart from them.  A name that was the only one is now one of
two, and is still the only one that counts. -/
theorem ofListed_append_null {listed : List String} (named : ∃ name ∈ listed, name ≠ "null") :
    Types.ofListed (listed ++ ["null"]) = ⟨(Types.ofListed listed).names, true⟩ := by
  obtain ⟨name, hmem, hname⟩ := named
  have hpos := List.length_pos_of_mem hmem
  have hseveral : 1 < (listed ++ ["null"]).length := by
    rw [List.length_append, List.length_singleton]
    omega
  have hfilter : (listed ++ ["null"]).filter (· ≠ "null") = listed.filter (· ≠ "null") := by
    rw [List.filter_append]
    simp
  have hnames : Entries.distinct (listed.filter (· ≠ "null")) = (Types.ofListed listed).names := by
    unfold Types.ofListed
    by_cases hone : 1 < listed.length
    · rw [if_pos hone]
    · rw [if_neg hone]
      obtain ⟨only, rfl⟩ := List.length_eq_one_iff.mp (by omega : listed.length = 1)
      rw [List.mem_singleton] at hmem
      subst hmem
      simp [hname, Entries.distinct]
  rw [Types.ofListed, if_pos hseveral, hfilter, hnames]
  simp

theorem listedTypes?_texts {names : List String} (h : names ≠ []) :
    listedTypes? (.arr (names.map .str)) = some names := by
  cases names with
  | nil => exact absurd rfl h
  | cons first rest => exact mapM_str?_texts (first :: rest)

/-- Schema objects that differ in whether null is listed among the types or is a keyword of its own. -/
theorem alike_of_nullable {value value' : Value} {listed : List String}
    (named : ∃ name ∈ listed, name ≠ "null") (type : Entries.get? members "type" = some value)
    (view : listedTypes? value = some listed) (flag : Entries.get? members "nullable" = some (.bool true))
    (type' : Entries.get? members' "type" = some value') (view' : listedTypes? value' = some (listed ++ ["null"]))
    (dropped : Entries.get? members' "nullable" = none)
    (others : Entries.AgreeOff ["type", "nullable"] members members') : Alike Eq members members' := by
  refine alike_of_agree (others _ (by decide)) (others.agreeOn (by decide)) ?_ ?_ ?_ ?_
  · intro path
    rw [typesAndNull_of_listed type view, typesAndNull_of_listed type' view', nullable_true flag,
      nullable_absent dropped, ofListed_append_null named]
    show Except.ok _ = Except.ok _
    rw [Bool.or_true, Bool.or_false]
  · exact fun _ => rules_congr (others.agreeOn (by decide))
  · exact fun _ => allowed_congr (others.agreeOn (by decide))
  · exact fun _ => requires_congr (others.agreeOn (by decide))

/-! ### Either spelling -/

theorem Respelled.alike (h : Respelled members members') : Alike Eq members members' := by
  cases h with
  | exclusiveBound pair bound flag dropped own others =>
      exact alike_of_bound pair others fun _ _ _ => boundRules_exclusiveBound bound flag dropped own
  | @inclusiveBound inclusive exclusive pair flag dropped others =>
      have hne : inclusive ∉ [exclusive] := by
        rcases boundPairs_cases pair with ⟨rfl, rfl⟩ | ⟨rfl, rfl⟩ <;> decide
      have hothers : Entries.AgreeOff [inclusive, exclusive] members members' :=
        others.mono fun _ => List.mem_cons_of_mem _
      exact alike_of_bound pair hothers fun _ _ _ => boundRules_inclusiveBound (others _ hne) flag dropped
  | @nullableType name named type flag listed dropped others =>
      exact alike_of_nullable ⟨name, List.mem_singleton_self _, named⟩ type rfl flag listed rfl dropped others
  | @nullableTypes names named type flag listed dropped others =>
      have hnames : names ≠ [] := by
        obtain ⟨name, hmem, -⟩ := named
        exact List.ne_nil_of_mem hmem
      have hview : listedTypes? (.arr (names.map .str ++ [.str "null"])) = some (names ++ ["null"]) := by
        rw [← listedTypes?_texts (List.append_ne_nil_of_left_ne_nil hnames _), List.map_append,
          List.map_singleton]
      exact alike_of_nullable named type (listedTypes?_texts hnames) flag listed hview dropped others

/-- **A schema is read as the same node, or fails with the same error, in either spelling**, whichever of
its schema objects are spelled in the later way. -/
theorem read_respelled {schema schema' : Value} (h : Changed Respelled schema schema') :
    read schema' = read schema :=
  (h.readAt_eq (fun _ _ hmembers => hmembers.alike) .root).symm

/-- A property with flags beside its bounds, which may be null by a keyword. -/
def flaggedAge : Members :=
  [("type", .str "integer"), ("nullable", .bool true), ("minimum", .num (.int 0)),
    ("exclusiveMinimum", .bool true), ("maximum", .num (.int 150)), ("exclusiveMaximum", .bool false)]

/-- The same property with its bounds and its null spelled in the later way. -/
def respelledAge : Members :=
  [("maximum", .num (.int 150)), ("exclusiveMinimum", .num (.int 0)),
    ("type", .arr [.str "integer", .str "null"])]

theorem read_respelled_age :
    read (.obj [("properties", .obj [("age", .obj respelledAge)])]) =
        read (.obj [("properties", .obj [("age", .obj flaggedAge)])]) ∧
      read (.obj [("properties", .obj [("age", .obj flaggedAge)])]) = .ok (Kind.object
        [("age", ⟨.integer, [.greaterThan (.ofInt 0), .max (.ofInt 150)], true⟩)] [] none false).plain := by
  have hproperty : ∀ {members members' : Members}, Respelled members members' →
      ChangedOnce Respelled (.obj [("properties", .obj [("age", .obj members)])])
        (.obj [("properties", .obj [("age", .obj members')])]) :=
    fun h => @ChangedOnce.property _ [] [] [] [] "age" _ _ (.here h)
  have hnull : Respelled flaggedAge [("type", .arr [.str "integer", .str "null"]), ("minimum", .num (.int 0)),
      ("exclusiveMinimum", .bool true), ("maximum", .num (.int 150)), ("exclusiveMaximum", .bool false)] :=
    .nullableType (by decide) rfl rfl rfl rfl fun name h => by
      simp only [List.mem_cons, List.not_mem_nil, or_false, not_or] at h
      simp [flaggedAge, Entries.get?_cons, h]
  have hflag : Respelled [("type", .arr [.str "integer", .str "null"]), ("minimum", .num (.int 0)),
      ("exclusiveMinimum", .bool true), ("maximum", .num (.int 150)), ("exclusiveMaximum", .bool false)]
      [("type", .arr [.str "integer", .str "null"]), ("minimum", .num (.int 0)),
        ("exclusiveMinimum", .bool true), ("maximum", .num (.int 150))] :=
    .inclusiveBound (List.mem_cons_of_mem _ List.mem_cons_self) rfl rfl fun name h => by
      simp only [List.mem_cons, List.not_mem_nil, or_false] at h
      simp [Entries.get?_cons, h]
  have hbound : Respelled [("type", .arr [.str "integer", .str "null"]), ("minimum", .num (.int 0)),
      ("exclusiveMinimum", .bool true), ("maximum", .num (.int 150))] respelledAge :=
    .exclusiveBound List.mem_cons_self rfl rfl rfl rfl fun name h => by
      simp only [List.mem_cons, List.not_mem_nil, or_false, not_or] at h
      by_cases htype : name = "type"
      · rw [htype]
        rfl
      · simp [respelledAge, Entries.get?_cons, h, htype]
  exact ⟨read_respelled (.tail (.tail (.single (hproperty hnull)) (hproperty hflag)) (hproperty hbound)), rfl⟩

end ZodRoutes.Schema
