/-
An error is true of the place that it names.

What an error says can be checked at its place: the keyword is there and has no use, the listed type is not
known, and so on.  `Shows` tells for each fault what has to be seen, in the words of the grammar.

An error of a schema object is one of the object itself, or of a schema inside it, and then the place of the
inner schema stands before the place within it.  A listed type is a place of its own, at which the same
object is seen.  `Blames` follows these cases; each reader of a keyword group fails in one of them, and the
depth of the schema carries the induction.
-/
import ZodRoutes.Proofs.Schema.Accepted

namespace ZodRoutes.Schema

open Grammar
open Json (Value)
open Meaning
open Reader (Members Types)

/-! ### What an error says -/

/-- What a misuse says of a value is so. -/
def Misuse.Says : Misuse → Value → Prop
  | notString, value => ¬ Shape.text.Fits value
  | notArray, value => ¬ Shape.list.Fits value
  | notObject, value => ¬ Shape.object.Fits value
  | notBoolean, value => ¬ Shape.truth.Fits value
  | notNumber, value => ¬ Shape.number.Fits value
  | notCount, value => ¬ Shape.count.Fits value
  | notTypes, value => ¬ Shape.types.Fits value
  | notNames, value => ¬ Shape.names.Fits value
  | notScalar, value => ¬ Shape.scalar.Fits value
  | notPositive, value => ∃ n, value = .num n ∧ n.exact ≤ 0
  | boundless _, value => value = .bool true

/-- The value of a keyword cannot be used: it has another shape than the keyword asks for, or is a step that
is not above zero, or makes a bound exclusive that is not there. -/
inductive Misused (members : Members) : String → Misuse → Prop
  | shape {keyword : String} {shape : Shape} {value : Value} {misuse : Misuse}
      (h : Entries.get? members keyword = some value) (hshape : shape? keyword = some shape)
      (misfit : ¬ shape.Fits value) (said : misuse.Says value) : Misused members keyword misuse
  | notPositive {n : Json.Number} (h : Entries.get? members "multipleOf" = some (.num n)) (low : n.exact ≤ 0) :
      Misused members "multipleOf" .notPositive
  | boundless {inclusive exclusive : String}
      (pair : (inclusive, exclusive) ∈ [("minimum", "exclusiveMinimum"), ("maximum", "exclusiveMaximum")])
      (h : IsTrue members exclusive) (absent : Entries.get? members inclusive = none) :
      Misused members exclusive (.boundless inclusive)

/-- The sort of values that a constraint keyword looks at. -/
def subjectOf? : String → Option Subject
  | "format" => some .text
  | "minLength" => some .text
  | "maxLength" => some .text
  | "pattern" => some .text
  | "minimum" => some .number
  | "maximum" => some .number
  | "exclusiveMinimum" => some .number
  | "exclusiveMaximum" => some .number
  | "multipleOf" => some .number
  | "minItems" => some .list
  | "maxItems" => some .list
  | _ => none

/-- The keyword that lists values: `const` if it is there, else `enum`. -/
def listingKeyword (members : Members) : String :=
  if Entries.has members "const" then "const" else "enum"

/-- What a fault says of a schema object is so. -/
def MembersShow (members : Members) : Fault → Prop
  | .notAnObject => False
  | .unresolvedRef reference => ∃ value, Entries.get? members "$ref" = some value ∧
      (value = .str reference ∨ (∀ s, value ≠ .str s) ∧ reference = value.text)
  | .unknownType name => name ∈ listedTypes members ∧ name ∉ knownTypes
  | .missingKeyword keyword kind => kind = "array" ∧ "array" ∈ listedTypes members ∧
      keyword = "items" ∧ Entries.get? members "items" = none
  | .invalidKeyword keyword misuse => Misused members keyword misuse
  | .emptyEnum => Entries.get? members "enum" = some (.arr [])
  | .emptyComposite kind => ∃ keyword,
      (keyword, kind) ∈ [("oneOf", "union"), ("anyOf", "union"), ("allOf", "intersection")] ∧
      Entries.get? members keyword = some (.arr [])
  | .misplacedConstraint keyword kind => Entries.has members keyword ∧
      (kind = "union" ∨ kind ∈ listedTypes members) ∧
      ∃ subject, subjectOf? keyword = some subject ∧ ∀ name ∈ listedTypes members, ¬ Constrains subject name
  | .conflictingKeywords first second =>
      (first = "enum" ∧ second = "const" ∧ ¬ ConstListed members) ∨
      (first = listingKeyword members ∧ second = "type" ∧ ¬ LiteralsFit members)

/-- What a fault says of a place is so. -/
def Shows (place : Value) (fault : Fault) : Prop :=
  (fault = .notAnObject ∧ ∀ members, place ≠ .obj members) ∨
    ∃ members, place = .obj members ∧ MembersShow members fault

/-- A fault is found in a schema below these segments. -/
inductive Blames : Value → List String → Fault → Prop
  | here {schema : Value} {fault : Fault} (shows : Shows schema fault) : Blames schema [] fault
  | child {members : Members} {steps rest : List String} {schema : Value} {fault : Fault}
      (child : Child members steps schema) (blames : Blames schema rest fault) :
      Blames (.obj members) (steps ++ rest) fault
  | listed {members : Members} {listed : List String} {index : Nat} {name : String} {fault : Fault}
      (place : AtType members listed index name) (shows : MembersShow members fault)
      (named : ∀ unknown, fault = .unknownType unknown → unknown = name) :
      Blames (.obj members) ["type", toString index] fault
  | childOfListed {members : Members} {listed : List String} {index : Nat} {name : String}
      {steps rest : List String} {schema : Value} {fault : Fault} (place : AtType members listed index name)
      (child : Child members steps schema) (blames : Blames schema rest fault) :
      Blames (.obj members) ("type" :: toString index :: (steps ++ rest)) fault

/-- What is blamed is seen where the segments lead. -/
theorem Blames.shows {schema : Value} {segments : List String} {fault : Fault}
    (h : Blames schema segments fault) (hdistinct : schema.namesDistinct) :
    ∃ place, walk? schema segments = some place ∧ Shows place fault := by
  induction h with
  | @here schema _ shows => exact ⟨schema, by rw [walk?], shows⟩
  | child child _ ih =>
      rw [child.walk? hdistinct]
      exact ih (child.namesDistinct hdistinct)
  | @listed members _ _ _ _ place shows _ =>
      rw [place.walk?]
      exact ⟨.obj members, by rw [walk?], .inr ⟨members, rfl, shows⟩⟩
  | childOfListed place child _ ih =>
      rw [place.walk?, child.walk? hdistinct]
      exact ih (child.namesDistinct hdistinct)

namespace Reader

open Steps

variable {inner : Inner} {members : Members} {path : Path} {own : Fault → Prop} {α : Type}

/-! ### Errors of a schema object -/

/-- An error of a schema object that is read at a place: an own one, or one of a schema inside it. -/
inductive Raised (own : Fault → Prop) (members : Members) (path : Path) (e : SchemaError) : Prop
  | here (place : e.path = path) (h : own e.fault)
  | inside {steps rest : List String} {schema : Value}
      (place : e.path.segments = path.segments ++ (steps ++ rest)) (child : Child members steps schema)
      (blames : Blames schema rest e.fault)

/-- An error is blamed on a schema that is read at a place. -/
def BlamedOn (schema : Value) (path : Path) (e : SchemaError) : Prop :=
  ∃ rest, e.path.segments = path.segments ++ rest ∧ Blames schema rest e.fault

/-- The schemas inside a schema object fail with errors that are blamed on them. -/
def InnerBlames (inner : Inner) (members : Members) : Prop :=
  ∀ steps schema, Child members steps schema → ∀ path, FailsOnly (BlamedOn schema path) (inner schema path)

theorem Raised.imp {own' : Fault → Prop} {e : SchemaError} (h : Raised own members path e)
    (himp : ∀ fault, own fault → own' fault) : Raised own' members path e := by
  cases h with
  | here place h => exact .here place (himp _ h)
  | inside place child blames => exact .inside place child blames

theorem fails_raised {fault : Fault} (h : own fault) :
    FailsOnly (Raised own members path) (path.fails fault : Except SchemaError α) :=
  .error (.here rfl h)

/-- A schema inside fails below the place of the object. -/
theorem InnerBlames.raised (hinner : InnerBlames inner members) {steps : List String} {schema : Value}
    {place : Path} (child : Child members steps schema) (hplace : place.segments = path.segments ++ steps) :
    FailsOnly (Raised own members path) (inner schema place) := by
  intro e he
  obtain ⟨rest, hrest, hblames⟩ := hinner steps schema child place e he
  refine .inside ?_ child hblames
  rw [hrest, hplace, List.append_assoc]

/-! ### Keywords -/

/-- The own errors include those of keywords that cannot be used. -/
def RaisesMisuse (own : Fault → Prop) (members : Members) : Prop :=
  ∀ keyword misuse, Misused members keyword misuse → own (.invalidKeyword keyword misuse)

theorem raisesMisuse_membersShow : RaisesMisuse (MembersShow members) members :=
  fun _ _ h => h

/-- A keyword is refused when its value has no view. -/
theorem keyword?_raised {view : Value → Option α} {misuse : Misuse} {keyword : String}
    (hown : RaisesMisuse own members) (h : ∀ value, Entries.get? members keyword = some value →
      view value = none → Misused members keyword misuse) :
    FailsOnly (Raised own members path) (keyword? view misuse members keyword path) := by
  unfold keyword?
  split
  · exact .ok none
  · next value hvalue =>
      split
      · exact .ok _
      · next hview => exact fails_raised (hown _ _ (h value hvalue hview))

/-- What has no view is not of the shape that is viewed. -/
theorem Views.misused {view : Value → Option α} {shape : Shape} {keyword : String}
    (hview : Views view shape) (misuse : Misuse) (hshape : shape? keyword = some shape)
    (hsaid : ∀ value, ¬ shape.Fits value → misuse.Says value) (value : Value)
    (hvalue : Entries.get? members keyword = some value) (hnone : view value = none) :
    Misused members keyword misuse := by
  have hmisfit : ¬ shape.Fits value := by
    rw [← hview value, hnone]
    simp
  exact .shape hvalue hshape hmisfit (hsaid value hmisfit)

/-- What is no list has not the shape of a list whose items are to be something. -/
theorem misused_of_not_list {keyword : String} {shape : Shape} {fits : Value → Prop}
    (hshape : shape? keyword = some shape)
    (hfits : ∀ value, shape.Fits value ↔ ∃ items, value = .arr items ∧ ∀ item ∈ items, fits item)
    (value : Value) (hvalue : Entries.get? members keyword = some value) (hnone : value.arr? = none) :
    Misused members keyword .notArray := by
  have hlist : ¬ Shape.list.Fits value := by
    rw [← views_list value, hnone]
    simp
  refine .shape hvalue hshape ?_ hlist
  rw [hfits]
  rintro ⟨items, heq, -⟩
  exact hlist ⟨items, heq⟩

theorem types_raised : FailsOnly (Raised (MembersShow members) members path) (types members path) :=
  (keyword?_raised raisesMisuse_membersShow (views_types.misused .notTypes rfl fun _ h => h)).map

theorem nullable_raised : FailsOnly (Raised (MembersShow members) members path) (nullable members path) :=
  (keyword?_raised raisesMisuse_membersShow (views_truth.misused .notBoolean rfl fun _ h => h)).map

theorem formatRules_raised : FailsOnly (Raised (MembersShow members) members path) (formatRules members path) :=
  (keyword?_raised raisesMisuse_membersShow (views_text.misused .notString rfl fun _ h => h)).map

theorem patternRules_raised :
    FailsOnly (Raised (MembersShow members) members path) (patternRules members path) :=
  (keyword?_raised raisesMisuse_membersShow (views_text.misused .notString rfl fun _ h => h)).map

theorem countRules_raised {keyword : String} {rule : Nat → Rule} (hshape : shape? keyword = some .count) :
    FailsOnly (Raised (MembersShow members) members path) (countRules keyword rule members path) :=
  (keyword?_raised raisesMisuse_membersShow (views_count.misused .notCount hshape fun _ h => h)).map

theorem stepRules_raised : FailsOnly (Raised (MembersShow members) members path) (stepRules members path) := by
  unfold stepRules
  refine (keyword?_raised raisesMisuse_membersShow (views_number.misused .notNumber rfl fun _ h => h)).bind ?_
  intro step hstep
  split
  · exact .pure _
  · next x =>
      split
      · exact .pure _
      · next hlow =>
          obtain ⟨n, hn, rfl⟩ := (hasNumber_of_keyword hstep).mp rfl
          rw [Json.Number.isPositive_toDouble] at hlow
          exact fails_raised (.notPositive hn (by omega))

theorem boundRules_raised {inclusive exclusive : String} {within beyond : Decimal.Double → Rule}
    (hinclusive : shape? inclusive = some .number) (hexclusive : shape? exclusive = some .truthOrNumber)
    (pair : (inclusive, exclusive) ∈ [("minimum", "exclusiveMinimum"), ("maximum", "exclusiveMaximum")]) :
    FailsOnly (Raised (MembersShow members) members path)
      (boundRules inclusive exclusive within beyond members path) := by
  unfold boundRules
  refine (keyword?_raised raisesMisuse_membersShow (views_number.misused .notNumber hinclusive fun _ h => h)).bind ?_
  intro bound hbound
  split
  · exact .pure _
  · exact .pure _
  · next htrue =>
      split
      · exact .pure _
      · exact fails_raised (.boundless pair htrue (keyword?_eq_none.mp hbound))
  · next value hnotFalse hnotTrue hvalue =>
      refine (keyword?_raised raisesMisuse_membersShow ?_).map
      intro other hother hnone
      have heq : value = other := Option.some.inj (hvalue.symm.trans hother)
      subst heq
      have hnumber : ¬ Shape.number.Fits value := by
        rw [← views_number value, hnone]
        simp
      refine .shape hvalue hexclusive ?_ hnumber
      rintro (⟨b, rfl⟩ | hfits)
      · cases b
        · exact hnotFalse rfl
        · exact hnotTrue rfl
      · exact hnumber hfits

/-- **The constraint keywords fail with what they show.** -/
theorem rules_raised : FailsOnly (Raised (MembersShow members) members path) (rules members path) := by
  unfold rules
  refine formatRules_raised.bind fun _ _ => ?_
  refine (countRules_raised rfl).bind fun _ _ => ?_
  refine (countRules_raised rfl).bind fun _ _ => ?_
  refine patternRules_raised.bind fun _ _ => ?_
  refine (boundRules_raised rfl rfl (by simp)).bind fun _ _ => ?_
  refine (boundRules_raised rfl rfl (by simp)).bind fun _ _ => ?_
  refine stepRules_raised.bind fun _ _ => ?_
  refine (countRules_raised rfl).bind fun _ _ => ?_
  exact (countRules_raised rfl).map

/-! ### Listed values -/

theorem enumLiterals_raised :
    FailsOnly (Raised (MembersShow members) members path) (enumLiterals members path) := by
  unfold enumLiterals
  refine FailsOnly.bind (keyword?_raised raisesMisuse_membersShow (misused_of_not_list rfl fun _ => Iff.rfl)) ?_
  intro given hgiven
  split
  · exact .pure _
  · exact fails_raised (get?_of_keyword_arr hgiven)
  · next values hfilled =>
      split
      · next hnone =>
          refine fails_raised (.shape (get?_of_keyword_arr hgiven) rfl ?_ (by simp [Misuse.Says, Shape.Fits, IsScalar]))
          rintro ⟨items, heq, hscalars⟩
          cases heq
          have hlisted : (values.mapM listedLiteral?).isSome :=
            isSome_mapM.mpr fun item hitem => (views_scalar item).mpr (hscalars item hitem)
          rw [hnone] at hlisted
          exact absurd hlisted (by simp)
      · exact .pure _

theorem allowed_raised : FailsOnly (Raised (MembersShow members) members path) (allowed members path) := by
  have hallowed : Succeeds (allowed members path) ↔ ListedFit members := succeeds_allowed
  unfold allowed at *
  refine enumLiterals_raised.bind fun listed hlisted => ?_
  refine (keyword?_raised raisesMisuse_membersShow (views_scalar.misused .notScalar rfl fun _ h => h)).bind ?_
  intro constant hconstant
  cases constant with
  | none => exact .pure _
  | some literal =>
      -- Everything but the last question is answered, so the groups do not fit because of it.
      have hunlisted : ¬ ListedFit members → ¬ ConstListed members := by
        intro hmisfit hconst
        obtain ⟨henum, hfilled⟩ := succeeds_enumLiterals.mp ⟨_, hlisted⟩
        have hshaped := (succeeds_keyword? rfl views_scalar).mp ⟨_, hconstant⟩
        exact hmisfit ⟨henum, hfilled, hshaped, hconst⟩
      simp only [hlisted, hconstant, bind, Except.bind] at hallowed
      refine FailsOnly.guard fun hnot => .here rfl (.inl ⟨rfl, rfl, hunlisted ?_⟩)
      exact fun hfits => hnot (succeeds_guard.mp (hallowed.mpr hfits))

/-- The keyword that the allowed values stem from. -/
theorem keyword_allowed {result : Allowed} (h : allowed members path = .ok (some result)) :
    result.keyword = listingKeyword members := by
  unfold allowed at h
  obtain ⟨listed, hlisted, h⟩ := bind_eq_ok.mp h
  obtain ⟨constant, hconstant, h⟩ := bind_eq_ok.mp h
  unfold listingKeyword Entries.has
  cases constant with
  | none =>
      rw [keyword?_eq_none.mp hconstant]
      obtain ⟨⟨values, withNull⟩, -, heq⟩ := Option.map_eq_some_iff.mp (pure_eq_ok.mp h)
      rw [← heq]
      rfl
  | some literal =>
      obtain ⟨value, hvalue, -⟩ := keyword?_eq_some.mp hconstant
      rw [hvalue]
      obtain ⟨-, heq⟩ := guard_eq_ok.mp h
      rw [← Option.some.inj heq]
      rfl

theorem checkTypes_raised {result : Allowed} (h : allowed members path = .ok (some result))
    {names : List String} (hnames : ∀ name, name ∈ names ↔ Named members name) :
    FailsOnly (Raised (MembersShow members) members path) (checkTypes result names path) := by
  have hcheck : Succeeds (checkTypes result names path) ↔ LiteralsFit members :=
    succeeds_checkTypes.trans (literalsFit_iff h hnames).symm
  unfold checkTypes at *
  split
  · exact .ok ()
  · next hmisfit =>
      rw [if_neg hmisfit] at hcheck
      exact fails_raised (.inr ⟨keyword_allowed h, rfl, fun hfit => not_succeeds_fails (hcheck.mpr hfit)⟩)

/-! ### Objects and types -/

theorem requiredNames_raised (hown : RaisesMisuse own members) :
    FailsOnly (Raised own members path) (requiredNames members path) := by
  unfold requiredNames
  refine FailsOnly.bind (keyword?_raised hown (misused_of_not_list rfl fun _ => Iff.rfl)) ?_
  intro given hgiven
  split
  · exact .pure _
  · next items =>
      split
      · next hnone =>
          have hnames : ¬ Shape.names.Fits (.arr items) := by
            rintro ⟨others, heq, htexts⟩
            cases heq
            have hlisted : (items.mapM Value.str?).isSome :=
              isSome_mapM.mpr fun item hitem => (views_text item).mpr (htexts item hitem)
            rw [hnone] at hlisted
            exact absurd hlisted (by simp)
          exact fails_raised (hown _ _ (.shape (get?_of_keyword_arr hgiven) rfl hnames hnames))
      · exact .pure _

theorem properties_raised (hinner : InnerBlames inner members) (hown : RaisesMisuse own members) :
    FailsOnly (Raised own members path) (Reader.properties inner members path) := by
  unfold Reader.properties
  refine FailsOnly.bind (keyword?_raised hown (views_object.misused .notObject rfl fun _ h => h)) ?_
  intro given hgiven
  split
  · exact .pure _
  · next schemas =>
      obtain ⟨value, hvalue, hview⟩ := keyword?_eq_some.mp hgiven
      rw [Value.obj?_eq_some.mp hview] at hvalue
      refine FailsOnly.map (FailsOnly.mapM fun property hproperty => ?_)
      refine FailsOnly.map (hinner.raised (.property hvalue hproperty) ?_)
      simp [Path.join]

theorem additional_raised (hinner : InnerBlames inner members) :
    FailsOnly (Raised own members path) (Reader.additional inner members path) := by
  unfold Reader.additional
  split
  · exact .pure _
  · exact .pure _
  · exact .pure _
  · next hschema => exact FailsOnly.map (hinner.raised (.additional hschema) rfl)

theorem objectKind_raised (hinner : InnerBlames inner members) (hown : RaisesMisuse own members) :
    FailsOnly (Raised own members path) (objectKind inner members path) := by
  unfold objectKind
  refine (requiredNames_raised hown).bind fun _ _ => ?_
  refine (properties_raised hinner hown).bind fun _ _ => ?_
  exact (additional_raised hinner).map

/-- What a listed type can show: a fault of the object, and if it is an unknown type, then this one. -/
def TypeShows (members : Members) (name : String) (fault : Fault) : Prop :=
  MembersShow members fault ∧ ∀ unknown, fault = .unknownType unknown → unknown = name

theorem typedKind_raised (hinner : InnerBlames inner members) {name : String}
    (hlisted : name ∈ listedTypes members) :
    FailsOnly (Raised (TypeShows members name) members path) (typedKind inner members name path) := by
  have hmisuse : RaisesMisuse (TypeShows members name) members := fun _ _ h => ⟨h, by simp⟩
  unfold typedKind
  split
  case h_6 =>
    split
    · next items hitems => exact FailsOnly.map (hinner.raised (.items hitems) rfl)
    · next habsent => exact fails_raised ⟨⟨rfl, hlisted, rfl, habsent⟩, by simp⟩
  case h_7 => exact objectKind_raised hinner hmisuse
  case h_8 =>
    refine fails_raised ⟨⟨hlisted, ?_⟩, by simp⟩
    simp_all [knownTypes]
  all_goals exact .pure _

/-! ### Types of a schema object -/

theorem Raised.blamedOn {e : SchemaError} (h : Raised (MembersShow members) members path e) :
    BlamedOn (.obj members) path e := by
  cases h with
  | here place h => exact ⟨[], by simp [place], .here (.inr ⟨members, rfl, h⟩)⟩
  | inside place child blames => exact ⟨_, place, .child child blames⟩

theorem InnerBlames.blamedOn (hinner : InnerBlames inner members) {steps : List String} {schema : Value}
    {place : Path} (child : Child members steps schema) (hplace : place.segments = path.segments ++ steps) :
    FailsOnly (BlamedOn (.obj members) path) (inner schema place) := by
  have hraised : FailsOnly (Raised (MembersShow members) members path) (inner schema place) :=
    hinner.raised child hplace
  exact hraised.imp fun e he => he.blamedOn

/-- What is found at a listed type is blamed on the object that lists it. -/
theorem Raised.blamedOn_listed {e : SchemaError} {listed : List String} {index : Nat} {name : String}
    (place : AtType members listed index name)
    (h : Raised (TypeShows members name) members (path.joinIndex "type" index) e) :
    BlamedOn (.obj members) path e := by
  cases h with
  | here hplace h => exact ⟨["type", toString index], by simp [hplace, Path.joinIndex, Path.join],
      .listed place h.1 h.2⟩
  | inside hplace child blames =>
      refine ⟨_, ?_, .childOfListed place child blames⟩
      rw [hplace]
      simp [Path.joinIndex, Path.join]

/-- Several types that count are listed in an array. -/
theorem atType_of_types {result : Types} (h : types members path = .ok result)
    (hseveral : ∀ name, result.names ≠ [name]) {name : String} {index : Nat}
    (hname : result.names[index]? = some name) : AtType members (listedTypes members) index name := by
  have hresult := types_eq_ok h
  obtain ⟨given, hgiven, -⟩ := bind_eq_ok.mp h
  have htype : Entries.get? members "type" = some (.arr ((listedTypes members).map .str)) := by
    unfold listedTypes at *
    rcases keyword?_eq_ok.mp hgiven with ⟨habsent, -⟩ | ⟨value, names, hvalue, hview, -⟩
    · rw [habsent] at hresult
      rw [hresult] at hname
      exact absurd hname (by simp [Types.ofListed])
    · rw [hvalue] at hresult ⊢
      unfold listedTypes? at hview
      split at hview
      · next single => exact absurd (by rw [hresult]; rfl) (hseveral single)
      · next first rest =>
          have hwritten := eq_map_of_mapM (fun _ _ hread => Value.str?_eq_some.mp hread) hview
          dsimp only
          rw [filterMap_of_mapM hview, ← hwritten]
      · exact absurd hview (by simp)
  exact ⟨htype, by rw [← hresult]; exact hname⟩

/-- A constraint that is stated has its keyword. -/
theorem has_keyword_of_states {rule : Rule} (h : States members rule) : Entries.has members rule.keyword := by
  unfold Entries.has
  cases rule <;> simp only [States, HasNumber, HasCount, IsTrue] at h <;> dsimp only [Rule.keyword] <;> grind

theorem subjectOf?_keyword (rule : Rule) : subjectOf? rule.keyword = some rule.subject := by
  cases rule <;> rfl

/-- No constraint applies to null, so those that apply to no type that counts apply to none that is listed. -/
theorem not_constrains_listed {subject : Subject}
    (h : ∀ name, Named members name → ¬ Constrains subject name) :
    ∀ name ∈ listedTypes members, ¬ Constrains subject name := by
  intro name hlisted hconstrains
  refine h name ⟨hlisted, ?_⟩ hconstrains
  rintro ⟨rfl, -⟩
  cases subject <;> simp [Constrains] at hconstrains

/-- The kind of a type is called as the type. -/
theorem TypedKind.name_eq {name : String} {kind : Kind} (h : TypedKind inner members name kind) :
    kind.name = name := by
  cases h with
  | object hobject =>
      obtain ⟨⟩ := hobject
      rfl
  | _ => rfl

/-- A stated constraint that applies to no type that counts is misplaced. -/
theorem misplaced_shows {rule : Rule} {kind : String} (hstates : States members rule)
    (hkind : kind = "union" ∨ kind ∈ listedTypes members)
    (h : ∀ name, Named members name → ¬ Constrains rule.subject name) :
    MembersShow members (.misplacedConstraint rule.keyword kind) :=
  ⟨has_keyword_of_states hstates, hkind, rule.subject, subjectOf?_keyword rule, not_constrains_listed h⟩

theorem typedNode_blamed (hinner : InnerBlames inner members) {result : Types}
    (htypes : types members path = .ok result) {rules : List Rule}
    (hrules : ∀ rule, rule ∈ rules ↔ States members rule) :
    FailsOnly (BlamedOn (.obj members) path) (typedNode inner members result.names rules path) := by
  have hnames : ∀ {name}, name ∈ result.names ↔ Named members name := mem_names_types htypes
  unfold typedNode
  split
  · next name hsingle =>
      have hnamed : Named members name := hnames.mp (by simp [hsingle])
      refine FailsOnly.bind ((typedKind_raised hinner hnamed.1).imp fun e he => ?_) fun kind hkind => ?_
      · exact (he.imp fun fault hfault => hfault.1).blamedOn
      · have hread := typedKind_eq_ok hkind
        split
        · next rule hfound =>
            have hstates := (hrules rule).mp (List.mem_of_find?_eq_some hfound)
            have hnone : ¬ Constrains rule.subject name := by
              rw [← hread.appliesTo]
              simpa using List.find?_some hfound
            refine FailsOnly.error (Raised.blamedOn (.here rfl (misplaced_shows hstates ?_ ?_)))
            · rw [hread.name_eq]
              exact .inr hnamed.1
            · intro other hother
              have honly : other = name := by simpa [hsingle] using hnames.mpr hother
              rwa [honly]
        · exact .pure _
  · next hseveral =>
      refine FailsOnly.bind (FailsOnly.mapM fun item hitem => ?_) fun kinds hkinds => ?_
      · have place := atType_of_types htypes hseveral (List.mem_zipIdx_iff_getElem?.mp hitem)
        have hnamed := hnames.mp (List.fst_mem_of_mem_zipIdx hitem)
        exact (typedKind_raised hinner hnamed.1).imp fun e he => he.blamedOn_listed place
      · split
        · next rule hfound =>
            have hstates := (hrules rule).mp (List.mem_of_find?_eq_some hfound)
            refine FailsOnly.error (Raised.blamedOn (.here rfl (misplaced_shows hstates (.inl rfl) ?_)))
            intro name hname hconstrains
            have happlies := (any_appliesTo_kinds hkinds).mpr ⟨name, hnames.mpr hname, hconstrains⟩
            have hwrong := List.find?_some hfound
            rw [happlies] at hwrong
            exact absurd hwrong (by simp)
        · exact .pure _

/-! ### All groups together -/

theorem impliedNode?_blamed (hinner : InnerBlames inner members) {rules : List Rule} :
    FailsOnly (BlamedOn (.obj members) path) (impliedNode? inner members rules path) := by
  unfold impliedNode?
  split
  · refine FailsOnly.map ((objectKind_raised hinner raisesMisuse_membersShow).imp ?_)
    exact fun e he => he.blamedOn
  · split
    · next items hitems =>
        exact FailsOnly.map (hinner.blamedOn (.items hitems) rfl)
    · exact .pure _

theorem ownParts_blamed (hinner : InnerBlames inner members) {result : Types}
    (htypes : types members path = .ok result) {rules : List Rule}
    (hrules : ∀ rule, rule ∈ rules ↔ States members rule) {given : Option Allowed}
    (hallowed : allowed members path = .ok given) :
    FailsOnly (BlamedOn (.obj members) path) (ownParts inner members result.names rules given path) := by
  have htyped := typedNode_blamed hinner htypes hrules
  unfold ownParts
  split
  · have hcheck := checkTypes_raised hallowed fun name => mem_names_types htypes
    refine (hcheck.imp fun e he => he.blamedOn).bind fun _ _ => ?_
    split
    · exact .pure _
    · exact htyped.map
  · split
    · exact (impliedNode?_blamed hinner).map
    · exact htyped.map

theorem branches_blamed (hinner : InnerBlames inner members) {keyword kind : String}
    (pair : (keyword, kind) ∈ [("oneOf", "union"), ("anyOf", "union"), ("allOf", "intersection")]) :
    FailsOnly (BlamedOn (.obj members) path) (branches inner members keyword kind path) := by
  have hcomposite : keyword ∈ composites ∧ shape? keyword = some .list := by
    simp only [List.mem_cons, Prod.mk.injEq, List.not_mem_nil, or_false] at pair
    rcases pair with ⟨rfl, -⟩ | ⟨rfl, -⟩ | ⟨rfl, -⟩ <;> simp [composites, shape?]
  have hkeyword : FailsOnly (Raised (MembersShow members) members path)
      (keyword? Value.arr? .notArray members keyword path) :=
    keyword?_raised raisesMisuse_membersShow (views_list.misused .notArray hcomposite.2 fun _ h => h)
  unfold branches
  refine (hkeyword.imp fun e he => he.blamedOn).bind fun given hgiven => ?_
  split
  · exact .pure _
  · exact FailsOnly.error (Raised.blamedOn (.here rfl ⟨keyword, pair, get?_of_keyword_arr hgiven⟩))
  · next schemas hfilled =>
      have hvalue := get?_of_keyword_arr hgiven
      refine FailsOnly.map (FailsOnly.mapM fun item hitem => ?_)
      refine hinner.blamedOn (.branch hcomposite.1 hvalue (List.mem_zipIdx_iff_getElem?.mp hitem)) ?_
      simp [Path.joinIndex, Path.join]

/-- **A schema object fails with what is blamed on it.** -/
theorem objectNode_blamed (hinner : InnerBlames inner members) :
    FailsOnly (BlamedOn (.obj members) path) (objectNode inner members path) := by
  unfold objectNode
  split
  · next reference href =>
      refine FailsOnly.error (Raised.blamedOn (.here rfl ⟨reference, href, ?_⟩))
      cases reference <;> simp [referenceText]
  · refine (types_raised.imp fun e he => he.blamedOn).bind fun types htypes => ?_
    refine (nullable_raised.imp fun e he => he.blamedOn).bind fun _ _ => ?_
    refine (rules_raised.imp fun e he => he.blamedOn).bind fun rules hrules => ?_
    refine (allowed_raised.imp fun e he => he.blamedOn).bind fun allowed hallowed => ?_
    refine (ownParts_blamed hinner htypes (fun _ => mem_rules hrules) hallowed).bind fun _ _ => ?_
    refine (branches_blamed hinner (by simp)).bind fun _ _ => ?_
    refine (branches_blamed hinner (by simp)).bind fun _ _ => ?_
    refine (branches_blamed hinner (by simp)).bind fun _ _ => ?_
    exact .pure _

theorem notAnObject_blamed {schema : Value} (h : ∀ members, schema ≠ .obj members) :
    FailsOnly (BlamedOn schema path) (path.fails .notAnObject : Except SchemaError α) :=
  .error ⟨[], by simp, .here (.inl ⟨rfl, h⟩)⟩

/-- A schema that is read within its depth fails with what is blamed on it. -/
theorem readWithin_blamed {depth : Nat} {schema : Value} (hdepth : schema.depth ≤ depth) (path : Path) :
    FailsOnly (BlamedOn schema path) (readWithin depth schema path) := by
  induction depth generalizing schema path with
  | zero =>
      cases schema with
      | obj members => simp [Value.depth] at hdepth
      | _ => exact notAnObject_blamed (by simp)
  | succ depth ih =>
      cases schema with
      | obj members =>
          refine objectNode_blamed fun steps schema child path => ?_
          have hinside := child.depth_le
          simp only [Value.depth] at hdepth
          exact ih (by omega) path
      | _ => exact notAnObject_blamed (by simp)

/-- The place of an error, from the root on, leads to what is blamed. -/
theorem blames_of_read_error {schema : Value} {e : SchemaError} (h : read schema = .error e) :
    Blames schema e.path.segments e.fault := by
  obtain ⟨rest, hrest, hblames⟩ := readWithin_blamed (Nat.le_refl _) .root e h
  have hsegments : e.path.segments = rest := by simpa [Path.root] using hrest
  rw [hsegments]
  exact hblames

end Reader

/-- **Every error is true of the place that it names.** -/
theorem shows_of_read_error {schema : Value} (hdistinct : schema.namesDistinct) {e : SchemaError}
    (h : read schema = .error e) :
    ∃ place, walk? schema e.path.segments = some place ∧ Shows place e.fault :=
  (Reader.blames_of_read_error h).shows hdistinct

/-- A property with two types, one of which asks for elements that are no schema. -/
def numericItemsSchema : Value :=
  .obj [("properties", .obj [("tags", .obj [("type", .arr [.str "string", .str "array"]),
    ("items", .num (.int 5))])])]

theorem shows_of_read_error_numericItems :
    ∃ e place, read numericItemsSchema = .error e ∧
      e.message = "schema at #/properties/tags/type/1/items must be an object" ∧
      walk? numericItemsSchema e.path.segments = some place ∧ Shows place e.fault := by
  have hread : read numericItemsSchema =
      .error ⟨⟨["properties", "tags", "type", "1", "items"]⟩, .notAnObject⟩ := rfl
  obtain ⟨place, hplace⟩ := shows_of_read_error (by decide) hread
  exact ⟨_, place, hread, by decide, hplace⟩

end ZodRoutes.Schema
