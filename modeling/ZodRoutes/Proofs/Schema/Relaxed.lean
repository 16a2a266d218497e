/-
Schema trees that ask for fewer members.

A node without a type accepts every value, and where absence counts as a value it accepts absence too.  A
union does so through one of its branches and an intersection through all of them.  A required name of such a
node asks for nothing, so a tree is relaxed by dropping, at every depth, the required names whose nodes are
waived.  Where nothing is waived the tree stays as it is.
-/
import ZodRoutes.Proofs.Schema.Tree
import ZodRoutes.Proofs.Entries

namespace ZodRoutes.Schema

mutual

/-- Whether absence is accepted where it counts as a value. -/
def Node.acceptsAbsence : Node → Bool
  | ⟨.any, _, _⟩ => true
  | ⟨.union branches, _, _⟩ => anyAcceptsAbsence branches
  | ⟨.intersection branches, _, _⟩ => allAcceptAbsence branches
  | _ => false

/-- Whether some node of the list accepts absence. -/
def anyAcceptsAbsence : List Node → Bool
  | [] => false
  | node :: rest => node.acceptsAbsence || anyAcceptsAbsence rest

/-- Whether every node of the list accepts absence. -/
def allAcceptAbsence : List Node → Bool
  | [] => true
  | node :: rest => node.acceptsAbsence && allAcceptAbsence rest

end

theorem anyAcceptsAbsence_eq (nodes : List Node) : anyAcceptsAbsence nodes = nodes.any Node.acceptsAbsence := by
  induction nodes with
  | nil => rfl
  | cons node rest ih => rw [anyAcceptsAbsence, ih, List.any_cons]

theorem allAcceptAbsence_eq (nodes : List Node) : allAcceptAbsence nodes = nodes.all Node.acceptsAbsence := by
  induction nodes with
  | nil => rfl
  | cons node rest ih => rw [allAcceptAbsence, ih, List.all_cons]

/-- The required names whose nodes are not waived. -/
def remaining (waived : Node → Bool) (properties : List (String × Node)) (required : List String) : List String :=
  required.filter fun name => !(Entries.get? (Entries.ofList properties) name).any waived

section

variable (waived : Node → Bool)

mutual

/-- The node without the required names of waived nodes. -/
def Node.relaxed : Node → Node
  | ⟨kind, rules, nullable⟩ => ⟨kind.relaxed, rules, nullable⟩

/-- The kind without the required names of waived nodes. -/
def Kind.relaxed : Kind → Kind
  | .object properties required additional closed =>
    .object (relaxedProperties properties) (remaining waived properties required)
      (relaxedAdditional additional) closed
  | .array items => .array items.relaxed
  | .union branches => .union (relaxedBranches branches)
  | .intersection branches => .intersection (relaxedBranches branches)
  | kind => kind

def relaxedProperties : List (String × Node) → List (String × Node)
  | [] => []
  | (name, node) :: rest => (name, node.relaxed) :: relaxedProperties rest

def relaxedAdditional : Option Node → Option Node
  | none => none
  | some node => some node.relaxed

def relaxedBranches : List Node → List Node
  | [] => []
  | node :: rest => node.relaxed :: relaxedBranches rest

end

theorem relaxedProperties_eq (properties : List (String × Node)) :
    relaxedProperties waived properties =
      properties.map fun property => (property.1, property.2.relaxed waived) := by
  induction properties with
  | nil => rfl
  | cons property rest ih => rw [relaxedProperties, ih, List.map_cons]

theorem relaxedAdditional_eq (additional : Option Node) :
    relaxedAdditional waived additional = additional.map (Node.relaxed waived) := by
  cases additional <;> rfl

theorem relaxedBranches_eq (branches : List Node) :
    relaxedBranches waived branches = branches.map (Node.relaxed waived) := by
  induction branches with
  | nil => rfl
  | cons branch rest ih => rw [relaxedBranches, ih, List.map_cons]

end

/-- **Where nothing is waived, nothing changes.** -/
theorem Node.relaxed_none (node : Node) : node.relaxed (fun _ => false) = node := by
  induction node using Node.induction with
  | step node ih =>
      obtain ⟨kind, rules, nullable⟩ := node
      -- Lists of children stay as they are when the children do.
      have hbranches : ∀ branches : List Node, (∀ branch ∈ branches, branch ∈ kind.children) →
          relaxedBranches (fun _ => false) branches = branches := by
        intro branches hchildren
        rw [relaxedBranches_eq]
        refine (List.map_congr_left fun branch hbranch => ?_).trans (List.map_id branches)
        exact ih branch (hchildren branch hbranch)
      rw [Node.relaxed]
      congr 1
      cases kind with
      | object properties required additional closed =>
          have hproperties : relaxedProperties (fun _ => false) properties = properties := by
            rw [relaxedProperties_eq]
            refine (List.map_congr_left fun property hproperty => ?_).trans (List.map_id properties)
            rw [ih property.2 (List.mem_append_left _ (List.mem_map.mpr ⟨property, hproperty, rfl⟩))]
            rfl
          have hadditional : relaxedAdditional (fun _ => false) additional = additional := by
            cases additional with
            | none => rfl
            | some node =>
                rw [relaxedAdditional, ih node (List.mem_append_right _ (Option.mem_toList.mpr rfl))]
          have hrequired : remaining (fun _ => false) properties required = required := by
            refine List.filter_eq_self.mpr fun name _ => ?_
            cases Entries.get? (Entries.ofList properties) name <;> rfl
          rw [Kind.relaxed, hproperties, hadditional, hrequired]
      | array items => rw [Kind.relaxed, ih items (by simp [Kind.children])]
      | union branches => rw [Kind.relaxed, hbranches branches fun _ h => h]
      | intersection branches => rw [Kind.relaxed, hbranches branches fun _ h => h]
      | _ => rfl

end ZodRoutes.Schema
