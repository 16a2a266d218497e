/-
What a schema says through its keywords.

A schema object is read by looking its keywords up, so neither their order nor any other member of the object
shows in what is read, nor which of several errors is reported.  The names that `required` lists are only
asked for one by one, so their order and their repeats do not show either.  What does show is the order of the
properties, of the branches and of the literals: these are left alone here.
-/
import ZodRoutes.Proofs.Schema.Changed
import ZodRoutes.Zod.Mapping

namespace ZodRoutes.Schema

open Json (Value)
open Reader

/-- The keywords that a schema object is read by. -/
def keywords : List String :=
  ["$ref", "type", "nullable", "format", "minLength", "maxLength", "pattern", "minimum", "exclusiveMinimum",
    "maximum", "exclusiveMaximum", "multipleOf", "minItems", "maxItems", "enum", "const", "oneOf", "anyOf",
    "allOf", "properties", "required", "additionalProperties", "items"]

/-- The members of a schema object are in another order, other members than keywords are added, removed or
changed, or the required names are in another order or repeated. -/
inductive Rearranged : Members → Members → Prop
  | permuted {members members' : Members} (distinct : (Entries.names members).Nodup)
      (h : members.Perm members') : Rearranged members members'
  | others {members members' : Members}
      (h : (members.filter fun member => member.1 ∈ keywords) = members'.filter fun member => member.1 ∈ keywords) :
      Rearranged members members'
  | required {front back : Members} {names names' : List String} (h : ∀ name, name ∈ names ↔ name ∈ names') :
      Rearranged (front ++ ("required", .arr (names.map .str)) :: back)
        (front ++ ("required", .arr (names'.map .str)) :: back)

variable {members members' : Members} {path : Path}

/-- Schema objects whose keywords look up the same are read as the same. -/
theorem alike_of_keywords (h : Entries.AgreeOn keywords members members') : Alike Eq members members' := by
  refine alike_of_agree (h _ (by decide)) (h.mono (by decide)) ?_ ?_ ?_ ?_
  · exact fun _ => typesAndNull_congr (h.mono (by decide))
  · exact fun _ => rules_congr (h.mono (by decide))
  · exact fun _ => allowed_congr (h.mono (by decide))
  · exact fun _ => requires_congr (h.mono (by decide))

/-- A list of names requires the names that are in it. -/
theorem requires_of_texts {names : List String}
    (h : Entries.get? members "required" = some (.arr (names.map .str))) :
    requires members path = .ok fun name => decide (name ∈ names) := by
  unfold requires requiredNames
  rw [keyword?_eq_some.mpr ⟨_, h, Value.arr?_eq_some.mpr rfl⟩]
  dsimp only [bind, Except.bind]
  rw [mapM_str?_texts]
  rfl

theorem requires_exchange {front back : Members} {names names' : List String}
    (h : ∀ name, name ∈ names ↔ name ∈ names') :
    requires (front ++ ("required", .arr (names.map .str)) :: back) path =
      requires (front ++ ("required", .arr (names'.map .str)) :: back) path := by
  cases hfront : Entries.get? front "required" with
  | some earlier =>
      refine requires_congr fun name hname => ?_
      rw [List.mem_singleton] at hname
      rw [hname, Entries.get?_append, Entries.get?_append, hfront, Option.some_or, Option.some_or]
  | none =>
      have hget : ∀ listed : List String,
          Entries.get? (front ++ ("required", Value.arr (listed.map .str)) :: back) "required" =
            some (.arr (listed.map .str)) := by
        intro listed
        rw [Entries.get?_append, hfront, Option.none_or, Entries.get?_cons, if_pos rfl]
      rw [requires_of_texts (hget names), requires_of_texts (hget names')]
      simp only [h]

theorem Rearranged.alike (h : Rearranged members members') : Alike Eq members members' := by
  cases h with
  | permuted distinct h => exact alike_of_keywords fun _ _ => Entries.get?_perm distinct h
  | others h =>
      refine alike_of_keywords fun keyword hkeyword => ?_
      have hfilter : ∀ members : Members,
          Entries.get? (members.filter fun member => member.1 ∈ keywords) keyword = Entries.get? members keyword :=
        fun _ => @Entries.get?_filter _ _ _ (fun name => decide (name ∈ keywords)) (decide_eq_true hkeyword)
      rw [← hfilter members, h, hfilter]
  | @required front back names names' h =>
      have hothers : Entries.AgreeOff ["required"] (front ++ ("required", .arr (names.map .str)) :: back)
          (front ++ ("required", .arr (names'.map .str)) :: back) :=
        fun name hname => Entries.get?_exchange_of_ne fun heq => hname (List.mem_singleton.mpr heq)
      refine alike_of_agree (hothers _ (by decide)) (hothers.agreeOn (by decide)) ?_ ?_ ?_ ?_
      · exact fun _ => typesAndNull_congr (hothers.agreeOn (by decide))
      · exact fun _ => rules_congr (hothers.agreeOn (by decide))
      · exact fun _ => allowed_congr (hothers.agreeOn (by decide))
      · exact fun _ => requires_exchange h

/-- **Only the keywords of a schema count, and not their order.**  Rearranging any of its schema objects
leaves the node or the error as it is, and with it the expression that is written out. -/
theorem read_rearranged {schema schema' : Value} (h : Changed Rearranged schema schema') :
    read schema' = read schema ∧
      (read schema' >>= Zod.expression) = (read schema >>= Zod.expression) := by
  have hread : read schema' = read schema :=
    (h.readAt_eq (fun _ _ hmembers => hmembers.alike) .root).symm
  exact ⟨hread, congrArg (· >>= Zod.expression) hread⟩

/-- A record whose only property is required. -/
def plainRecord : Value :=
  .obj [("required", .arr [.str "id"]),
    ("properties", .obj [("id", .obj [("type", .str "string"), ("minLength", .num (.int 1))])])]

/-- The same record with an example, a repeat and another order. -/
def rearrangedRecord : Value :=
  .obj [("required", .arr [.str "id", .str "id"]),
    ("properties", .obj [("id", .obj [("example", .null), ("minLength", .num (.int 1)), ("type", .str "string")])])]

theorem read_rearranged_record :
    (read rearrangedRecord = read plainRecord ∧
        (read rearrangedRecord >>= Zod.expression) = (read plainRecord >>= Zod.expression)) ∧
      read plainRecord = .ok (Kind.object [("id", ⟨.string, [.minLength 1], false⟩)] ["id"] none false).plain ∧
      (read plainRecord >>= Zod.expression) = .ok "z.object(\x7bid:z.string().min(1)\x7d)" := by
  have hproperty : ∀ {members members' : Members}, Rearranged members members' →
      ChangedOnce Rearranged (.obj [("required", .arr [.str "id"]), ("properties", .obj [("id", .obj members)])])
        (.obj [("required", .arr [.str "id"]), ("properties", .obj [("id", .obj members')])]) :=
    fun h => @ChangedOnce.property _ [_] [] [] [] "id" _ _ (.here h)
  have horder : Rearranged [("type", .str "string"), ("minLength", .num (.int 1))]
      [("minLength", .num (.int 1)), ("type", .str "string")] := .permuted (by decide) (.swap ..)
  have hexample : Rearranged [("minLength", .num (.int 1)), ("type", .str "string")]
      [("example", .null), ("minLength", .num (.int 1)), ("type", .str "string")] := .others rfl
  have hrepeat : ∀ schemas : Value, Rearranged [("required", .arr [.str "id"]), ("properties", schemas)]
      [("required", .arr [.str "id", .str "id"]), ("properties", schemas)] :=
    fun _ => @Rearranged.required [] [_] ["id"] ["id", "id"] (by simp)
  refine ⟨?_, rfl, rfl⟩
  exact read_rearranged (.tail (.tail (.single (hproperty horder)) (hproperty hexample)) (.here (hrepeat _)))

end ZodRoutes.Schema
