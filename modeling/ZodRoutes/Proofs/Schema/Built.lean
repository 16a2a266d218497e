/-
What the nodes of a tree are made of.

Every node that the reader makes stems from a schema object, the one that is read or one inside it.  Either the
keywords of the object describe the kind of the node, and of the rules that the object states those that apply stand
on it, or the node is any value, null, a closed set or a composite, and has no rules.  Putting the parts of an object
together makes no other nodes: a part stays as it is, becomes a branch, or gives up its own branches, and null
changes the flag alone.

So what is to be shown of every node of a tree is shown of these two forms.
-/
import ZodRoutes.Proofs.Schema.Alike
import ZodRoutes.Proofs.Schema.Tree

namespace ZodRoutes.Schema

open Json (Value)
open Reader (Additional Allowed ImpliedNode Members ObjectKind OwnParts Reading Reads TypedKind TypedNode)

/-- A kind that gathers something gathers at least one thing. -/
def Kind.Filled : Kind → Prop
  | .enumeration values => values ≠ []
  | .union branches => branches ≠ []
  | .intersection branches => branches ≠ []
  | _ => True

/-- A kind that rules are never put on: any value, null, a closed set, or a composite. -/
def Kind.Unruled : Kind → Prop
  | .any | .null | .enumeration _ | .union _ | .intersection _ => True
  | _ => False

/-- A schema object is the schema itself or stands inside it, at any depth. -/
inductive Within (root : Value) : Members → Prop
  | itself {members : Members} (h : root = .obj members) : Within root members
  | inside {members below : Members} {steps : List String} (outer : Within root members)
      (child : Child members steps (.obj below)) : Within root below

/-- A node that the reader makes of the keywords of a schema object. -/
inductive Built (members : Members) : Node → Prop
  /-- A kind that the keywords describe, with those of the stated rules that apply to it. -/
  | described {name : String} {kind : Kind} {rules : List Rule} {path : Path} {nullable : Bool}
      (read : TypedKind readAt members name kind) (stated : Reader.rules members path = .ok rules) :
      Built members ⟨kind, kind.applicable rules, nullable⟩
  | gathered {kind : Kind} {nullable : Bool} (unruled : kind.Unruled) (filled : kind.Filled) :
      Built members ⟨kind, [], nullable⟩

/-- A node that stems from a schema object of the schema that was read. -/
def Node.Stems (root : Value) (node : Node) : Prop :=
  ∃ members, Within root members ∧ Built members node

variable {root : Value} {members : Members} {path : Path}

theorem Built.filled {node : Node} (h : Built members node) : node.kind.Filled := by
  cases h with
  | described read _ =>
      cases read with
      | object hobject =>
          obtain ⟨-, -, -⟩ := hobject
          trivial
      | _ => trivial
  | gathered _ filled => exact filled

theorem Built.withNullable {node : Node} (h : Built members node) (nullable : Bool) :
    Built members { node with nullable } := by
  cases h with
  | described read stated => exact .described read stated
  | gathered unruled filled => exact .gathered unruled filled

/-- Accepting null changes nothing. -/
theorem Node.Everywhere.withNull {node : Node} (h : node.Everywhere (Node.Stems root)) (nullable : Bool) :
    ({ node with nullable } : Node).Everywhere (Node.Stems root) := by
  obtain ⟨members, hwithin, hbuilt⟩ := h.self
  exact .intro ⟨members, hwithin, hbuilt.withNullable nullable⟩ h.child

/-! ### The nodes of one schema object -/

/-- A schema object of the schema that is read, with the trees of the schemas inside it settled. -/
structure Settled (root : Value) (members : Members) : Prop where
  within : Within root members
  inside : ∀ steps schema node, Child members steps schema → Reads readAt schema node →
    node.Everywhere (Node.Stems root)

namespace Settled

theorem gathered (h : Settled root members) {kind : Kind} (unruled : kind.Unruled) (filled : kind.Filled)
    (below : ∀ child ∈ kind.children, child.Everywhere (Node.Stems root)) :
    kind.plain.Everywhere (Node.Stems root) :=
  .intro ⟨members, h.within, .gathered unruled filled⟩ below

theorem additional (h : Settled root members) {other : Option Node} {closed : Bool}
    (hadditional : Additional readAt members other closed) : ∀ node ∈ other, node.Everywhere (Node.Stems root) := by
  intro node hnode
  cases hadditional with
  | absent => cases hnode
  | refused => cases hnode
  | allowed =>
      cases hnode
      exact h.gathered trivial trivial (by simp [Kind.children])
  | schema hschema _ read =>
      cases hnode
      exact h.inside _ _ _ (.additional hschema) read

theorem objectKind (h : Settled root members) {kind : Kind} (hkind : ObjectKind readAt members path kind) :
    ∀ child ∈ kind.children, child.Everywhere (Node.Stems root) := by
  obtain ⟨-, hproperties, hadditional⟩ := hkind
  intro child hchild
  simp only [Kind.children, List.mem_append, List.mem_map, Option.mem_toList] at hchild
  rcases hchild with ⟨⟨name, node⟩, hentry, rfl⟩ | hother
  · rcases Reader.properties_eq_ok hproperties with ⟨-, rfl⟩ | ⟨schemas, nodes, hschemas, hread, rfl⟩
    · cases hentry
    · obtain ⟨⟨_, schema⟩, hmem, -, hnode⟩ :=
        Steps.exists_of_mem_results hread (Entries.mem_of_mem_ofList hentry)
      exact h.inside _ _ _ (.property hschemas hmem) hnode
  · exact h.additional hadditional child hother

theorem typedKind (h : Settled root members) {name : String} {kind : Kind}
    (hkind : TypedKind readAt members name kind) :
    ∀ child ∈ kind.children, child.Everywhere (Node.Stems root) := by
  cases hkind with
  | array hitems read =>
      intro child hchild
      rw [List.mem_singleton.mp hchild]
      exact h.inside _ _ _ (.items hitems) read
  | object hobject => exact h.objectKind hobject
  | _ => simp [Kind.children]

/-- Of the rules that are stated, those that apply stand on a kind. -/
theorem described (h : Settled root members) {name : String} {kind : Kind} {rules : List Rule}
    (hkind : TypedKind readAt members name kind) (hrules : Reader.rules members path = .ok rules) :
    (⟨kind, kind.applicable rules, false⟩ : Node).Everywhere (Node.Stems root) :=
  .intro ⟨members, h.within, .described hkind hrules⟩ (h.typedKind hkind)

theorem typedNode (h : Settled root members) {names : List String} {rules : List Rule} {node : Node}
    (named : names ≠ []) (hnode : TypedNode readAt members rules names node)
    (hrules : Reader.rules members path = .ok rules) : node.Everywhere (Node.Stems root) := by
  cases hnode with
  | @single _ kind read applies =>
      have hall : kind.applicable rules = rules :=
        List.filter_eq_self.mpr fun rule hrule => by simpa using applies rule hrule
      rw [← hall]
      exact h.described read hrules
  | @several _ kinds read _ =>
      refine h.gathered trivial ?_ ?_
      · intro hnil
        rw [List.map_eq_nil_iff] at hnil
        rw [hnil, List.forall₂_nil_right_iff] at read
        exact named read
      · intro branch hbranch
        obtain ⟨kind, hkind, rfl⟩ := List.mem_map.mp hbranch
        obtain ⟨name, -, hread⟩ := Steps.exists_of_mem_results read hkind
        exact h.described hread hrules

theorem impliedNode (h : Settled root members) {rules : List Rule} {result : Option Node}
    (hresult : ImpliedNode readAt members rules result) (hrules : Reader.rules members path = .ok rules) :
    ∀ node ∈ result, node.Everywhere (Node.Stems root) := by
  intro node hnode
  cases hresult with
  | object _ hobject =>
      cases hnode
      exact h.described (.object hobject) hrules
  | array _ hitems read =>
      cases hnode
      exact h.described (.array hitems read) hrules
  | nothing => cases hnode

/-- Literals make a closed set only when there is one. -/
theorem allowed (h : Settled root members) (allowed : Allowed) : allowed.node.Everywhere (Node.Stems root) := by
  unfold Allowed.node
  split
  · exact h.gathered trivial trivial (by simp [Kind.children])
  · next hvalues =>
      have hfilled : allowed.values ≠ [] := by simpa using hvalues
      exact h.gathered trivial hfilled (by simp [Kind.children])

theorem ownParts (h : Settled root members) {names : List String} {rules : List Rule} {listed : Option Allowed}
    {own : List Node} (hown : OwnParts readAt members path names rules listed own)
    (hrules : Reader.rules members path = .ok rules) : ∀ part ∈ own, part.Everywhere (Node.Stems root) := by
  cases hown with
  | @listed listed _ _ => simpa using h.allowed listed
  | @narrowed listed node _ named read => simpa using ⟨h.allowed listed, h.typedNode named read hrules⟩
  | typed named read => simpa using h.typedNode named read hrules
  | implied _ read => simpa using h.impliedNode read hrules

/-- The branches of a composite keyword are there and stem from the schemas listed. -/
theorem branches (h : Settled root members) {keyword kind : String} {nodes : List Node}
    (hkeyword : keyword ∈ composites)
    (hnodes : Reader.branches readAt members keyword kind path = .ok (some nodes)) :
    nodes ≠ [] ∧ ∀ node ∈ nodes, node.Everywhere (Node.Stems root) := by
  rcases Reader.branches_eq_ok hnodes with ⟨-, habsurd⟩ | ⟨schemas, listed, hschemas, hfilled, hread, heq⟩
  · cases habsurd
  · cases heq
    refine ⟨?_, ?_⟩
    · rintro rfl
      rw [List.forall₂_nil_right_iff] at hread
      exact hfilled hread
    · intro node hnode
      obtain ⟨schema, hschema, hreads⟩ := Steps.exists_of_mem_results hread hnode
      obtain ⟨index, hindex⟩ := List.mem_iff_getElem?.mp hschema
      exact h.inside _ _ _ (.branch hkeyword hschemas hindex) hreads

theorem parts (h : Settled root members) {reading : Reading} (hof : reading.Of readAt members path) :
    ∀ part ∈ reading.parts, part.Everywhere (Node.Stems root) := by
  intro part hpart
  simp only [Reading.parts, List.mem_append, Option.mem_toList, Option.map_eq_some_iff] at hpart
  rcases hpart with ((hown | ⟨nodes, hnodes, rfl⟩) | ⟨nodes, hnodes, rfl⟩) | ⟨nodes, hnodes, rfl⟩
  · exact h.ownParts (Reader.ownParts_eq_ok hof.own) hof.rules part hown
  · obtain ⟨hfilled, hbelow⟩ := h.branches (by decide) (hnodes ▸ hof.oneOf)
    exact h.gathered trivial hfilled hbelow
  · obtain ⟨hfilled, hbelow⟩ := h.branches (by decide) (hnodes ▸ hof.anyOf)
    exact h.gathered trivial hfilled hbelow
  · obtain ⟨hfilled, hbelow⟩ := h.branches (by decide) (hnodes ▸ hof.allOf)
    exact h.gathered trivial hfilled hbelow

/-- Every part adds at least one branch. -/
theorem flattened {part : Node} (hpart : part.Everywhere (Node.Stems root)) :
    Reader.flattened part ≠ [] ∧ ∀ branch ∈ Reader.flattened part, branch.Everywhere (Node.Stems root) := by
  unfold Reader.flattened
  split
  · next branches hkind =>
      obtain ⟨members, -, hbuilt⟩ := hpart.self
      have hfilled := hbuilt.filled
      rw [hkind] at hfilled
      exact ⟨hfilled, fun branch hbranch => hpart.child branch (by rwa [hkind])⟩
  · exact ⟨by simp, by simpa using hpart⟩

theorem combine (h : Settled root members) {parts : List Node}
    (hparts : ∀ part ∈ parts, part.Everywhere (Node.Stems root)) :
    (Reader.combine parts).Everywhere (Node.Stems root) := by
  unfold Reader.combine
  split
  · exact h.gathered trivial trivial (by simp [Kind.children])
  · exact hparts _ (by simp)
  · next hnil _ =>
      refine h.gathered trivial ?_ ?_
      · intro hflat
        obtain ⟨part, rest, rfl⟩ := List.exists_cons_of_ne_nil hnil
        rw [List.flatMap_cons, List.append_eq_nil_iff] at hflat
        exact (flattened (hparts part (by simp))).1 hflat.1
      · intro branch hbranch
        obtain ⟨part, hpart, hflat⟩ := List.mem_flatMap.mp hbranch
        exact (flattened (hparts part hpart)).2 branch hflat

theorem node (h : Settled root members) {node : Node} (hnode : readAt (.obj members) path = .ok node) :
    node.Everywhere (Node.Stems root) := by
  rw [Reader.readAt_obj, Reader.objectNode_eq_ok] at hnode
  obtain ⟨reading, hof, rfl⟩ := hnode
  exact (h.combine (h.parts hof)).withNull _

end Settled

/-! ### Whole trees -/

/-- A schema of the schema that is read gives a tree whose nodes stem from it, by induction on how deeply it is
nested. -/
theorem stems_of_within {depth : Nat} {schema : Value} {node : Node} (hdepth : schema.depth ≤ depth)
    (hwithin : ∀ members, schema = .obj members → Within root members) (h : readAt schema path = .ok node) :
    node.Everywhere (Node.Stems root) := by
  induction depth generalizing schema node path with
  | zero =>
      obtain ⟨below, members, -, rfl, -⟩ := Reader.readWithin_eq_ok.mp h
      simp [Value.depth] at hdepth
  | succ depth ih =>
      obtain ⟨below, members, -, rfl, -⟩ := Reader.readWithin_eq_ok.mp h
      refine Settled.node ⟨hwithin members rfl, fun steps schema node hchild hreads => ?_⟩ h
      obtain ⟨path, hread⟩ := hreads
      refine ih ?_ ?_ hread
      · have hinside := hchild.depth_le
        simp only [Value.depth] at hdepth
        omega
      · rintro inside rfl
        exact .inside (hwithin members rfl) hchild

/-- **Every node of a tree that is read stems from a schema object of the schema.** -/
theorem readAt_stems {node : Node} (h : readAt root path = .ok node) : node.Everywhere (Node.Stems root) :=
  stems_of_within (Nat.le_refl _) (fun _ hmembers => .itself hmembers) h

end ZodRoutes.Schema
