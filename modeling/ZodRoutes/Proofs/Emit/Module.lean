/-
What a generated module is read as.

Texts of the document come into a module in four places: in the comment above a constant, in the keys of an
object, inside the expressions, and in the name of the imported module.  None of them ends early what it stands
in.  A module is therefore read as the tokens of its import and then, for each route in order, those of its
constant, with the keys and the expressions of each bucket in their places; what a key is read as decodes to the
name, and where a value ends no comma or bracket of its own can be mistaken for the one behind it.
-/
import ZodRoutes.Emit.Module
import ZodRoutes.Proofs.Document.RouteName
import ZodRoutes.Proofs.Script.Expression

namespace ZodRoutes.Emit

open Document (Route routeName)
open Request (Buckets Location)
open Script
open Zod (Expr NameWord)
open Zod.Expr (isIdentifier)

/-! ### The tokens of a module -/

/-- The token of a key: the name as a word where it is an identifier, else a string. -/
def keyToken (name : String) : Token :=
  if isIdentifier name then .word name else .string name

/-- A key and the expression under it. -/
def entryTokens (beyond : Char → Bool) (entry : String × String) : List Token :=
  keyToken entry.1 :: .mark ':' :: tokensOf beyond entry.2

/-- The member of one bucket: an object schema with the entries of the bucket. -/
def bucketTokens (beyond : Char → Bool) (params : Buckets) (location : Location) : List Token :=
  [.word location.bucketName, .mark ':', .word "z", .mark '.', .word "object", .mark '(', .mark '\x7b'] ++
    commaSeparated ((params.bucket location).map (entryTokens beyond)) ++
    [.mark '\x7d', .mark ')', .mark ',']

/-- The constant of a route. -/
def Style.routeTokens (style : Style) (beyond : Char → Bool) (route : Route) : List Token :=
  [.word "export", .word "const", .word (style.constantName route), .mark '=', .mark '\x7b'] ++
    Location.all.flatMap (bucketTokens beyond route.params) ++ [.mark '\x7d', .mark ';']

/-- The import. -/
def Style.importTokens (style : Style) : List Token :=
  [.word "import", .mark '\x7b', .word "z", .mark '\x7d', .word "from", .string style.zodModule, .mark ';']

/-- The import and the constants of the routes in order. -/
def Style.moduleTokens (style : Style) (beyond : Char → Bool) (routes : List Route) : List Token :=
  style.importTokens ++ routes.flatMap (style.routeTokens beyond)

/-- The token of a key decodes to the name. -/
@[simp] theorem key?_keyToken (name : String) : (keyToken name).key? = some name := by
  unfold keyToken
  split <;> rfl

variable {beyond : Char → Bool} {style : Style} {route : Route} {params : Buckets} {location : Location}

/-! ### Comments -/

/-- Breaking an end mark leaves the first character of a text as it is. -/
theorem head?_brokenEndMarks (text : List Char) : (brokenEndMarks text).head? = text.head? := by
  fun_cases brokenEndMarks text <;> rfl

/-- **A broken text has no end mark**, also not together with the blank behind it. -/
theorem blockEnd?_brokenEndMarks (text rest : List Char) :
    blockEnd? (brokenEndMarks text ++ ' ' :: rest) = blockEnd? rest := by
  have hskip : ∀ {c : Char} {others : List Char}, (c = '*' → others.head? ≠ some '/') →
      blockEnd? (c :: others) = blockEnd? others := by
    intro c others hother
    rw [blockEnd?]
    rintro inner rfl rfl
    exact hother rfl rfl
  induction text using brokenEndMarks.induct with
  | case1 others ih =>
      rw [brokenEndMarks, List.cons_append, List.cons_append, List.cons_append, hskip (by simp),
        hskip (by simp), hskip (by simp), ih]
  | case2 c others hother ih =>
      rw [brokenEndMarks, List.cons_append, hskip, ih]
      · rintro rfl hhead
        rw [List.head?_append, head?_brokenEndMarks] at hhead
        cases others with
        | nil => cases hhead
        | cons d others =>
            cases hhead
            exact hother others rfl rfl
      · exact hother
  | case3 => exact hskip (by simp)

/-- The comment above a constant is skipped, whatever the document says there. -/
theorem reads_docComment (route : Route) : Reads beyond anything (docComment route).toList [] := by
  have htext : (docComment route).toList =
      '/' :: '*' :: ('*' :: ' ' :: (brokenEndMarks (docText route).toList ++ [' ', '*', '/'])) := by
    simp [docComment]
  rw [htext]
  refine Reads.blockComment fun rest => ?_
  show blockEnd? ('*' :: ' ' :: (brokenEndMarks (docText route).toList ++ [' ', '*', '/'] ++ rest)) = _
  rw [List.append_assoc]
  show blockEnd? (brokenEndMarks (docText route).toList ++ ' ' :: '*' :: '/' :: rest) = _
  rw [blockEnd?_brokenEndMarks]
  rfl

/-! ### Lines -/

/-- A line with its ending. -/
def Style.ended (style : Style) (line : String) : List Char :=
  (line ++ style.lineEnding.text).toList

/-- A module is its lines, each with its ending. -/
theorem toList_moduleText (style : Style) (routes : List Route) :
    (style.moduleText routes).toList = (style.moduleLines routes).flatMap style.ended := by
  rw [Style.moduleText, Zod.Term.toList_joined_empty, List.flatMap_map]
  rfl

theorem reads_ended (style : Style) {line : String} {tokens : List Token}
    (h : Reads beyond anything line.toList tokens) : Reads beyond anything (style.ended line) tokens := by
  have hblank : style.lineEnding.text.toList.all isBlank := by
    cases style.lineEnding <;> rfl
  have hread := h.andThen (Reads.blanks (List.all_eq_true.mp hblank))
  rwa [List.append_nil, ← String.toList_append] at hread

/-- The banner is a comment that its line ending ends. -/
theorem reads_banner (style : Style) : Reads beyond anything (style.ended banner) [] := by
  obtain ⟨words, hwords⟩ : ∃ words, banner.toList = '/' :: '/' :: words := ⟨_, by simp [banner]; rfl⟩
  have hplain : ∀ c ∈ words, ¬ endsLine c := by
    have hall : banner.toList.all (!endsLine ·) := rfl
    rw [hwords, List.all_eq_true] at hall
    intro c hc
    simpa using hall c (List.mem_cons_of_mem _ (List.mem_cons_of_mem _ hc))
  unfold Style.ended
  rw [String.toList_append, hwords]
  cases style.lineEnding with
  | lf => exact Reads.lineComment hplain rfl
  | crlf =>
      have hread : Reads beyond anything ('/' :: '/' :: words ++ ['\r'] ++ ['\n']) [] :=
        (Reads.lineComment hplain rfl).andThen (Reads.blank rfl)
      rwa [List.append_assoc] at hread

theorem reads_importLine (style : Style) :
    Reads beyond anything style.importLine.toList style.importTokens := by
  have htext : style.importLine.toList = "import".toList ++ ' ' :: '\x7b' :: ' ' :: ("z".toList ++
      ' ' :: '\x7d' :: ' ' :: ("from".toList ++ ' ' :: ((Text.quoted style.zodModule).toList ++ [';']))) := by
    unfold Style.importLine
    generalize Text.quoted style.zodModule = literal
    simp
  rw [htext]
  refine Reads.behindName ⟨"import", rfl⟩ rfl (Reads.behindBlank rfl (Reads.behindMark (by decide) ?_))
  refine Reads.behindBlank rfl (Reads.behindName ⟨"z", rfl⟩ rfl (Reads.behindBlank rfl ?_))
  refine Reads.behindMark (by decide) (Reads.behindBlank rfl (Reads.behindName ⟨"from", rfl⟩ rfl ?_))
  exact Reads.behindBlank rfl ((Reads.quoted style.zodModule).andThen (Reads.mark (by decide)))

theorem reads_key (name : String) :
    Reads beyond (endsWord beyond) (Expr.objectKey name).toList [keyToken name] := by
  unfold Expr.objectKey keyToken
  by_cases hname : isIdentifier name
  · rw [if_pos hname, if_pos hname]
    exact Reads.name ⟨name, hname⟩
  · rw [if_neg hname, if_neg hname]
    exact (Reads.quoted name).imp fun _ _ => rfl

theorem isIdentifier_bucketName (location : Location) : isIdentifier location.bucketName := by
  cases location <;> rfl

theorem reads_bucketLine (style : Style)
    (h : ∀ entry ∈ route.params.bucket location, Readable beyond entry.2) :
    Reads beyond anything (style.bucketLine route location).toList
      (bucketTokens beyond route.params location) := by
  have hentries : Reads beyond Zod.closes
      (Text.joined "," ((route.params.bucket location).map fun entry =>
        Expr.objectKey entry.1 ++ ":" ++ entry.2)).toList
      (commaSeparated ((route.params.bucket location).map (entryTokens beyond))) :=
    reads_row fun entry hentry => reads_entry (reads_key entry.1) (h entry hentry)
  have hindent : style.indent.text.toList.all isBlank := by
    cases style.indent <;> rfl
  have htext : (style.bucketLine route location).toList = style.indent.text.toList ++
      (location.bucketName.toList ++ ':' :: ' ' :: ("z".toList ++ '.' :: ("object".toList ++ '(' :: '\x7b' ::
        ((Text.joined "," ((route.params.bucket location).map fun entry =>
          Expr.objectKey entry.1 ++ ":" ++ entry.2)).toList ++ '\x7d' :: [')', ','])))) := by
    simp [Style.bucketLine, Expr.object]
  rw [htext]
  refine (Reads.blanks (List.all_eq_true.mp hindent)).andThen ?_
  refine Reads.behindName ⟨location.bucketName, isIdentifier_bucketName location⟩ rfl ?_
  refine Reads.behindMark (by decide) (Reads.behindBlank rfl ?_)
  refine Reads.behindName ⟨"z", rfl⟩ rfl (Reads.behindMethod ⟨"object", rfl⟩ rfl ?_)
  refine Reads.behindMark (by decide) (Reads.behindMark (by decide) (hentries.andThenCons ?_ rfl))
  exact Reads.behindMark (by decide) (Reads.behindMark (by decide) (Reads.mark (by decide)))

/-- The name of the constant of a route is one word. -/
theorem reads_constantName (hsuffix : ∀ c ∈ style.suffix.toList, isWordPart beyond c)
    (hname : ∃ raw, route.name = routeName raw) :
    Reads beyond (endsWord beyond) (style.constantName route).toList [.word (style.constantName route)] := by
  obtain ⟨raw, hraw⟩ := hname
  obtain ⟨first, rest, hlist, hfirst, hall⟩ :=
    NameWord.exists_cons ⟨route.name, hraw ▸ Document.isIdentifier_routeName raw⟩
  have htext : (style.constantName route).toList = first :: (rest ++ style.suffix.toList) := by
    unfold Style.constantName
    rw [String.toList_append, hlist, List.cons_append]
  refine Reads.word htext hfirst fun c hc => ?_
  rcases List.mem_append.mp hc with hc | hc
  · exact Reads.isWordPart_of_isIdentifierPart (hall c (List.mem_cons_of_mem _ hc))
  · exact hsuffix c hc

theorem reads_headLine (hname : Reads beyond (endsWord beyond) (style.constantName route).toList
      [.word (style.constantName route)]) :
    Reads beyond anything ("export const " ++ style.constantName route ++ " = \x7b").toList
      [.word "export", .word "const", .word (style.constantName route), .mark '=', .mark '\x7b'] := by
  have htext : ("export const " ++ style.constantName route ++ " = \x7b").toList = "export".toList ++ ' ' ::
      ("const".toList ++ ' ' :: ((style.constantName route).toList ++ ' ' :: '=' :: ' ' :: ['\x7b'])) := by
    simp
  rw [htext]
  refine Reads.behindName ⟨"export", rfl⟩ rfl (Reads.behindBlank rfl ?_)
  refine Reads.behindName ⟨"const", rfl⟩ rfl (Reads.behindBlank rfl (hname.andThenCons ?_ rfl))
  refine Reads.behindBlank rfl (Reads.markBefore (.inl rfl) rfl (Reads.behindBlank rfl ?_))
  exact Reads.mark (by decide)

/-! ### Routes and modules -/

/-- What a module needs of a route: its name is one that is made from a text, and its buckets are those of
some parameters. -/
structure Made (route : Route) : Prop where
  name : ∃ raw, route.name = routeName raw
  params : ∃ ps, Buckets.ofParameters ps = .ok route.params

theorem Made.readable (h : Made route) (location : Location) :
    ∀ entry ∈ route.params.bucket location, Readable beyond entry.2 := by
  obtain ⟨ps, hps⟩ := h.params
  exact fun entry hentry => readable_of_mem_bucket hps hentry

/-- The lines of a route are read as its constant. -/
theorem reads_routeLines (hsuffix : ∀ c ∈ style.suffix.toList, isWordPart beyond c) (h : Made route) :
    Reads beyond anything ((style.routeLines route).flatMap style.ended) (style.routeTokens beyond route) := by
  have hdocs : Reads beyond anything
      ((if style.docs then [docComment route] else []).flatMap style.ended) [] := by
    cases style.docs with
    | false => exact .nil
    | true =>
        have hcomment : Reads beyond anything _ [] := reads_ended style (reads_docComment route)
        rwa [← List.flatMap_singleton style.ended] at hcomment
  have hhead : Reads beyond anything _ _ :=
    reads_ended style (reads_headLine (reads_constantName hsuffix h.name))
  have hbuckets : Reads beyond anything
      (Location.all.flatMap fun location => style.ended (style.bucketLine route location))
      (Location.all.flatMap (bucketTokens beyond route.params)) :=
    Reads.flatMap fun location _ => reads_ended style (reads_bucketLine style (h.readable location))
  have hclose : Reads beyond anything (style.ended "\x7d;") [.mark '\x7d', .mark ';'] :=
    reads_ended style (Reads.behindMark (by decide) (Reads.mark (by decide)))
  have hall := hdocs.andThen ((hhead.andThen hbuckets).andThen hclose)
  simpa [Style.routeLines, Style.routeTokens, List.flatMap_map] using hall

/-- The lines of a module are read as its import and the constants of its routes. -/
theorem reads_module {routes : List Route} (hsuffix : ∀ c ∈ style.suffix.toList, isWordPart beyond c)
    (h : ∀ route ∈ routes, Made route) :
    Reads beyond anything (style.moduleText routes).toList (style.moduleTokens beyond routes) := by
  have hroutes : Reads beyond anything
      (routes.flatMap fun route => style.ended "" ++ (style.routeLines route).flatMap style.ended)
      (routes.flatMap (style.routeTokens beyond)) :=
    Reads.flatMap fun route hroute =>
      (show Reads beyond anything (style.ended "") [] from reads_ended style .nil).andThen
        (reads_routeLines hsuffix (h route hroute))
  have hall := (reads_banner style).andThen ((reads_ended style (reads_importLine style)).andThen hroutes)
  have htext : (style.moduleText routes).toList = style.ended banner ++ (style.ended style.importLine ++
      routes.flatMap fun route => style.ended "" ++ (style.routeLines route).flatMap style.ended) := by
    rw [toList_moduleText, Style.moduleLines, List.flatMap_cons, List.flatMap_cons, List.flatMap_assoc]
    rfl
  rw [htext]
  exact hall

/-! ### Brackets -/

theorem held_bucketTokens (h : ∀ entry ∈ params.bucket location, Readable beyond entry.2) :
    Held (bucketTokens beyond params location) := by
  have hrow : Held (commaSeparated ((params.bucket location).map (entryTokens beyond))) := by
    refine held_commaSeparated fun item hitem => ?_
    obtain ⟨entry, hentry, rfl⟩ := List.mem_map.mp hitem
    refine closed_entry ?_ (h entry hentry).closed
    unfold keyToken
    split <;> rfl
  intro close
  unfold bucketTokens
  rw [run?_append, run?_append]
  show (run? ['\x7d', ')', close] _).bind _ = _
  rw [hrow.above]
  rfl

theorem closed_routeTokens (h : Made route) : Closed (style.routeTokens beyond route) := by
  have hbuckets : Held (Location.all.flatMap (bucketTokens beyond route.params)) :=
    Held.flatMap fun location _ => held_bucketTokens (h.readable location)
  show run? [] _ = _
  unfold Style.routeTokens
  rw [run?_append, run?_append]
  show (run? ['\x7d'] _).bind _ = _
  rw [hbuckets]
  rfl

theorem closed_moduleTokens {routes : List Route} (h : ∀ route ∈ routes, Made route) :
    Closed (style.moduleTokens beyond routes) :=
  Closed.append rfl (Closed.flatMap fun route hroute => closed_routeTokens (h route hroute))

/-- **No text of a document breaks out of a module.**  A module whose suffix stands in words is read to its end
as its import and then the constants of its routes in order; its brackets match; and under every key of a bucket,
which decodes to the name, stands the expression, read by itself with no bracket and no comma left over. -/
theorem tokens?_moduleText (beyond : Char → Bool) (style : Style) (routes : List Route)
    (hsuffix : ∀ c ∈ style.suffix.toList, isWordPart beyond c)
    (hnames : ∀ route ∈ routes, ∃ raw, route.name = routeName raw)
    (hparams : ∀ route ∈ routes, ∃ ps, Buckets.ofParameters ps = .ok route.params) :
    tokens? beyond (style.moduleText routes).toList = some (style.moduleTokens beyond routes) ∧
      Closed (style.moduleTokens beyond routes) ∧
      ∀ route ∈ routes, ∀ location, ∀ entry ∈ route.params.bucket location,
        (keyToken entry.1).key? = some entry.1 ∧
          tokens? beyond entry.2.toList = some (tokensOf beyond entry.2) ∧
          Closed (tokensOf beyond entry.2) := by
  have hmade : ∀ route ∈ routes, Made route := fun route hroute =>
    ⟨hnames route hroute, hparams route hroute⟩
  refine ⟨(reads_module hsuffix hmade).tokens?_eq, closed_moduleTokens hmade, ?_⟩
  intro route hroute location entry hentry
  have hreadable : Readable beyond entry.2 := (hmade route hroute).readable location entry hentry
  exact ⟨key?_keyToken entry.1, hreadable.tokens?_eq, hreadable.closed⟩

/-- A parameter whose name and pattern try to end the strings that they stand in. -/
def hostileParameter : Request.Parameter where
  name := "a\": 1, b"
  location := .query
  required := true
  schema := ⟨.string, [.pattern "\"]//"], false⟩

/-- The bucket of that parameter. -/
def hostileParams : Buckets where
  path := []
  query := [("a\": 1, b", "z.string().regex(new RegExp(\"\\\"]//\"))")]
  header := []
  body := []

/-- A route whose path and summary try to end the comment that they stand in. -/
def hostileRoute : Route where
  name := routeName "get /*/"
  method := .get
  path := "/*/"
  summary := some "*/ \x7d; alert(1); /*"
  params := hostileParams

theorem tokens?_moduleText_hostile :
    (∀ c ∈ Style.default.suffix.toList, isWordPart (fun _ => false) c) ∧
      hostileRoute.name = routeName "get /*/" ∧
      Buckets.ofParameters [hostileParameter] = .ok hostileRoute.params ∧
      tokens? (fun _ => false) (Style.default.moduleText [hostileRoute]).toList =
        some (Style.default.moduleTokens (fun _ => false) [hostileRoute]) ∧
      Closed (Style.default.moduleTokens (fun _ => false) [hostileRoute]) := by
  have hall : Style.default.suffix.toList.all (isWordPart fun _ => false) := rfl
  have hsuffix := List.all_eq_true.mp hall
  have hname : hostileRoute.name = routeName "get /*/" := by rw [hostileRoute]
  have hparams : Buckets.ofParameters [hostileParameter] = .ok hostileParams := rfl
  have hroute : hostileRoute.params = hostileParams := by rw [hostileRoute]
  rw [← hroute] at hparams
  obtain ⟨htokens, hclosed, -⟩ := tokens?_moduleText (fun _ => false) Style.default [hostileRoute] hsuffix
    (by simpa using ⟨_, hname⟩) (by simpa using ⟨_, hparams⟩)
  exact ⟨hsuffix, hname, hparams, htokens, hclosed⟩

end ZodRoutes.Emit
