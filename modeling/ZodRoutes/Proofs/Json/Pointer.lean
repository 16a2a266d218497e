/-
Following segments into a value.

A segment selects the member of that name of an object, or the element of an array whose index it writes in
decimal.  Segments one after the other lead to at most one place of a value, because no object of a document
has a name twice: an object is read member by member, and a repeated name keeps its place and takes the last
value.
-/
import ZodRoutes.Json.Reader
import ZodRoutes.Proofs.Entries

namespace ZodRoutes.Json.Value

/-- The element at an index that is written in decimal. -/
def element? (items : List Value) (index : String) : Option Value :=
  (items.zipIdx.find? fun item => toString item.2 == index).map Prod.fst

/-- What one segment selects: a member by its name, or an element by its index. -/
def step? : Value → String → Option Value
  | obj members, name => Entries.get? members name
  | arr items, index => element? items index
  | _, _ => none

/-- The place that segments lead to, one after the other. -/
def follow? (value : Value) : List String → Option Value
  | [] => some value
  | segment :: rest => (value.step? segment).bind (follow? · rest)

/-- Different indices are written differently. -/
theorem toString_index_inj {index other : Nat} (h : toString index = toString other) : index = other := by
  rw [Nat.toString_eq_ofList_toDigits, Nat.toString_eq_ofList_toDigits] at h
  have hdigits := congrArg (fun s => Nat.ofDigitChars 10 s.toList 0) h
  simpa only [String.toList_ofList, Nat.ofDigitChars_ten_toDigits] using hdigits

/-- An index that is written selects the element that stands there. -/
@[simp] theorem element?_repr (items : List Value) (index : Nat) :
    element? items index.repr = items[index]? := by
  -- The indices of the rest go on from where those of the front end.
  have hfrom : ∀ (items : List Value) (index start : Nat),
      ((items.zipIdx start).find? fun item => toString item.2 == toString (start + index)).map Prod.fst =
        items[index]? := by
    intro items
    induction items with
    | nil =>
        intro index start
        rfl
    | cons item rest ih =>
        intro index start
        rw [List.zipIdx_cons]
        cases index with
        | zero => simp
        | succ index =>
            have hne : ¬ (toString (item, start).2 == toString (start + (index + 1))) = true := by
              intro heq
              have := toString_index_inj (beq_iff_eq.mp heq)
              omega
            have hrest := ih index (start + 1)
            rw [show start + 1 + index = start + (index + 1) by omega] at hrest
            rw [List.find?_cons_of_neg (by exact hne), hrest]
            rfl
  have hzero := hfrom items index 0
  rwa [Nat.zero_add] at hzero

/-- Nothing is inside a text. -/
theorem follow?_str_cons (s segment : String) (rest : List String) :
    follow? (.str s) (segment :: rest) = none := rfl

/-! ### Names of members -/

mutual

/-- No object in the value has a name twice. -/
def namesDistinct : Value → Bool
  | arr items => namesDistinctList items
  | obj members => decide (Entries.names members).Nodup && namesDistinctMembers members
  | _ => true

/-- No object in an element has a name twice. -/
def namesDistinctList : List Value → Bool
  | [] => true
  | item :: rest => namesDistinct item && namesDistinctList rest

/-- No object in the value of a member has a name twice. -/
def namesDistinctMembers : List (String × Value) → Bool
  | [] => true
  | (_, value) :: rest => namesDistinct value && namesDistinctMembers rest

end

theorem namesDistinct_arr {items : List Value} :
    (arr items).namesDistinct ↔ ∀ item ∈ items, item.namesDistinct := by
  rw [namesDistinct]
  induction items with
  | nil => simp [namesDistinctList]
  | cons item rest ih => simp [namesDistinctList, ih]

theorem namesDistinct_obj {members : List (String × Value)} :
    (obj members).namesDistinct ↔
      (Entries.names members).Nodup ∧ ∀ member ∈ members, member.2.namesDistinct := by
  have hmembers : ∀ members : List (String × Value), namesDistinctMembers members ↔
      ∀ member ∈ members, member.2.namesDistinct := by
    intro members
    induction members with
    | nil => simp [namesDistinctMembers]
    | cons member rest ih =>
        obtain ⟨name, value⟩ := member
        simp only [namesDistinctMembers, Bool.and_eq_true, ih, List.forall_mem_cons]
  rw [namesDistinct, Bool.and_eq_true, decide_eq_true_iff, hmembers]

/-- What is found in a value of distinct names has distinct names. -/
theorem namesDistinct_of_get? {members : List (String × Value)} {name : String} {value : Value}
    (hdistinct : (obj members).namesDistinct) (h : Entries.get? members name = some value) :
    value.namesDistinct :=
  (namesDistinct_obj.mp hdistinct).2 _ (Entries.mem_of_get? h)

/-! ### Values read from text

Members are written one by one into an object that is still open, so its names stay distinct, as do those of
everything that stands around it.
-/

theorem namesDistinct_insert {done : Entries Value} {name : String} {value : Value}
    (hdone : (obj done).namesDistinct) (hvalue : value.namesDistinct) :
    (obj (Entries.insert done name value)).namesDistinct := by
  obtain ⟨hnodup, hmembers⟩ := namesDistinct_obj.mp hdone
  refine namesDistinct_obj.mpr ⟨Entries.nodup_names_insert hnodup, ?_⟩
  intro member hmember
  rcases Entries.mem_of_mem_insert hmember with hold | rfl
  · exact hmembers member hold
  · exact hvalue

/-- Nothing in the token has a name twice. -/
private def tokenDistinct : Token → Prop
  | .scalar value => value.namesDistinct
  | _ => True

/-- Nothing in what is still open has a name twice. -/
private def openDistinct : Open → Prop
  | .array done => (arr done).namesDistinct
  | .object done _ => (obj done).namesDistinct

/-- Nothing in what was read before the next token has a name twice. -/
private def expectDistinct : Expect → Prop
  | .name done => (obj done).namesDistinct
  | .colon done _ => (obj done).namesDistinct
  | .next value => value.namesDistinct
  | _ => True

private theorem first?_distinct {text rest : List Char} {token : Token}
    (h : Token.first? text = some (token, rest)) : tokenDistinct token := by
  unfold Token.first? at h
  split at h
  case h_1 => cases h
  case h_8 =>
    obtain ⟨_, -, heq⟩ := Option.map_eq_some_iff.mp h
    cases heq
    trivial
  case h_12 =>
    split at h
    · obtain ⟨_, -, heq⟩ := Option.map_eq_some_iff.mp h
      cases heq
      rfl
    · cases h
  all_goals
    cases h
    trivial

private theorem ofText?_distinct {text : List Char} {tokens : List Token}
    (h : Token.ofText? text = some tokens) : ∀ token ∈ tokens, tokenDistinct token := by
  fun_induction Token.ofText? text generalizing tokens with
  | case1 =>
      cases h
      simp
  | case2 _ _ _ ih => exact ih h
  | case3 => cases h
  | case4 _ _ _ first _ hfirst ih =>
      obtain ⟨others, hothers, rfl⟩ := Option.map_eq_some_iff.mp h
      intro token htoken
      rcases List.mem_cons.mp htoken with rfl | hrest
      · exact first?_distinct hfirst
      · exact ih hothers token hrest

private theorem readTokens?_distinct {stack : List Open} {expect : Expect} {tokens : List Token}
    {value : Value} (hstack : ∀ o ∈ stack, openDistinct o) (hexpect : expectDistinct expect)
    (htokens : ∀ token ∈ tokens, tokenDistinct token) (h : readTokens? stack expect tokens = some value) :
    value.namesDistinct := by
  have harray : ∀ {item : Value} {done : List Value}, item.namesDistinct → (arr done).namesDistinct →
      (arr (item :: done)).namesDistinct := by
    intro item done hitem hdone
    rw [namesDistinct_arr] at hdone ⊢
    exact List.forall_mem_cons.mpr ⟨hitem, hdone⟩
  have hreverse : ∀ {done : List Value}, (arr done).namesDistinct → (arr done.reverse).namesDistinct := by
    intro done hdone
    rw [namesDistinct_arr] at hdone ⊢
    exact fun item hitem => hdone item (List.mem_reverse.mp hitem)
  -- The token that was read tells what is open afterwards; the rest of the tokens stay as they were.
  fun_induction readTokens? stack expect tokens with
  | case1 _ _ _ ih | case2 _ _ _ ih =>
      rw [List.forall_mem_cons] at htokens
      exact ih hstack htokens.1 htokens.2 h
  | case3 _ _ _ ih | case4 _ _ _ ih | case15 _ _ ih | case16 _ _ _ ih =>
      exact ih hstack rfl (List.forall_mem_cons.mp htokens).2 h
  | case5 _ _ _ ih | case7 _ _ _ ih =>
      exact ih (List.forall_mem_cons.mpr ⟨rfl, hstack⟩) trivial (List.forall_mem_cons.mp htokens).2 h
  | case9 _ _ _ ih | case11 _ _ _ ih => exact ih hstack trivial (List.forall_mem_cons.mp htokens).2 h
  | case13 _ _ _ ih =>
      rw [List.forall_mem_cons] at hstack htokens
      exact ih hstack.2 (hreverse hstack.1) htokens.2 h
  | case17 _ _ _ _ ih => exact ih hstack hexpect (List.forall_mem_cons.mp htokens).2 h
  | case18 _ _ _ _ ih =>
      exact ih (List.forall_mem_cons.mpr ⟨hexpect, hstack⟩) trivial (List.forall_mem_cons.mp htokens).2 h
  | case19 =>
      cases h
      exact hexpect
  | case20 _ _ _ _ ih =>
      rw [List.forall_mem_cons] at hstack htokens
      exact ih (List.forall_mem_cons.mpr ⟨harray hexpect hstack.1, hstack.2⟩) trivial htokens.2 h
  | case21 _ _ _ _ ih =>
      rw [List.forall_mem_cons] at hstack htokens
      exact ih hstack.2 (hreverse (harray hexpect hstack.1)) htokens.2 h
  | case22 _ _ _ _ _ ih | case23 _ _ _ _ _ ih =>
      rw [List.forall_mem_cons] at hstack htokens
      exact ih hstack.2 (namesDistinct_insert hstack.1 hexpect) htokens.2 h
  | _ => cases h

/-- **No object of a value that was read from text has a name twice.** -/
theorem namesDistinct_of_read? {text : String} {value : Value} (h : read? text = some value) :
    value.namesDistinct := by
  obtain ⟨tokens, htokens, hvalue⟩ := Option.bind_eq_some_iff.mp h
  have hstart : expectDistinct .value := trivial
  exact readTokens?_distinct (by simp) hstart (ofText?_distinct htokens) hvalue

end ZodRoutes.Json.Value
