/-
The lines of a module.

A module is written line by line, so it falls apart into its lines at the line endings, provided that no line holds a
line break of its own.  What comes from a document comes in quoted, as a name, as an expression, or as the words of a
summary, all of which stand on one line.  One text comes in as it is: the path of a route, in the comment above its
constant.  So the lines are as they should be exactly when no path that is written breaks a line; without comments no
path is written.
-/
import ZodRoutes.Proofs.Document.Routes
import ZodRoutes.Proofs.Emit.Module
import ZodRoutes.Proofs.Zod.OneLine

namespace ZodRoutes

/-! ### Splitting at line endings -/

namespace Emit.LineEnding

/-- A character in front of the first of some pieces. -/
def inFront (c : Char) : List (List Char) → List (List Char)
  | [] => [[c]]
  | piece :: rest => (c :: piece) :: rest

/-- The pieces of a text between its line endings. -/
def pieces : LineEnding → List Char → List (List Char)
  | _, [] => [[]]
  | .lf, '\n' :: rest => [] :: pieces .lf rest
  | .crlf, '\r' :: '\n' :: rest => [] :: pieces .crlf rest
  | ending, c :: rest => inFront c (pieces ending rest)

/-- A text split at its line endings; what is behind the last one is a piece too. -/
def split (ending : LineEnding) (text : String) : List String :=
  (ending.pieces text.toList).map String.ofList

variable {ending : LineEnding}

/-- No line ending begins with a character that breaks no line. -/
theorem pieces_cons {c : Char} (h : ¬ breaksLine c) (rest : List Char) :
    ending.pieces (c :: rest) = inFront c (ending.pieces rest) := by
  refine pieces.eq_4 ending c rest ?_ ?_
  · rintro - rfl
    exact h (by decide)
  · rintro _ - rfl -
    exact h (by decide)

/-- A line is cut off at its ending. -/
theorem pieces_line {line : List Char} (h : ∀ c ∈ line, ¬ breaksLine c) (rest : List Char) :
    ending.pieces (line ++ (ending.text.toList ++ rest)) = line :: ending.pieces rest := by
  induction line with
  | nil => cases ending <;> rfl
  | cons c line ih =>
      obtain ⟨hc, hline⟩ := List.forall_mem_cons.mp h
      rw [List.cons_append, pieces_cons hc, ih hline]
      rfl

/-- Lines without line breaks are what is found between their endings, and nothing is behind the last one. -/
theorem pieces_lines {lines : List String} (h : ∀ line ∈ lines, OnOneLine line) :
    ending.pieces (lines.flatMap fun line => (line ++ ending.text).toList) = lines.map String.toList ++ [[]] := by
  induction lines with
  | nil => cases ending <;> rfl
  | cons line lines ih =>
      obtain ⟨hline, hlines⟩ := List.forall_mem_cons.mp h
      rw [List.flatMap_cons, String.toList_append, List.append_assoc, pieces_line hline, ih hlines]
      rfl

/-! ### Line breaks of lines with their endings -/

/-- With line feeds alone there is no carriage return. -/
theorem return_notMem {lines : List String} (h : ∀ line ∈ lines, OnOneLine line) :
    '\r' ∉ lines.flatMap fun line => (line ++ LineEnding.lf.text).toList := by
  intro hreturn
  obtain ⟨line, hline, hmem⟩ := List.mem_flatMap.mp hreturn
  rw [String.toList_append, List.mem_append] at hmem
  rcases hmem with hmem | hmem
  · exact h line hline _ hmem (by decide)
  · exact absurd hmem (by decide)

/-- With both characters a carriage return stands before every line feed. -/
theorem return_before {lines : List String} (h : ∀ line ∈ lines, OnOneLine line) {front back : List Char}
    (heq : (lines.flatMap fun line => (line ++ LineEnding.crlf.text).toList) = front ++ '\n' :: back) :
    ∃ before, front = before ++ ['\r'] := by
  induction lines generalizing front with
  | nil => simp at heq
  | cons line lines ih =>
      obtain ⟨hline, hlines⟩ := List.forall_mem_cons.mp h
      have hending : LineEnding.crlf.text.toList = ['\r', '\n'] := rfl
      rw [List.flatMap_cons, String.toList_append, List.append_assoc, hending] at heq
      -- The line feed is not in the line, so it is that of the ending or stands behind it.
      rcases List.append_eq_append_iff.mp heq with ⟨between, rfl, hbehind⟩ | ⟨inside, hinside, hbehind⟩
      · cases between with
        | nil => exact absurd (List.head_eq_of_cons_eq hbehind) (by decide)
        | cons first between =>
            obtain ⟨rfl, hrest⟩ := List.cons_eq_cons.mp hbehind
            cases between with
            | nil => exact ⟨line.toList, rfl⟩
            | cons second between =>
                obtain ⟨rfl, hothers⟩ := List.cons_eq_cons.mp hrest
                obtain ⟨before, rfl⟩ := ih hlines hothers
                exact ⟨line.toList ++ '\r' :: '\n' :: before, by simp⟩
      · cases inside with
        | nil => exact absurd (List.head_eq_of_cons_eq hbehind) (by decide)
        | cons first inside =>
            have hfeed : '\n' ∈ line.toList := by
              rw [hinside, List.head_eq_of_cons_eq hbehind]
              simp
            exact absurd (show breaksLine '\n' by decide) (hline _ hfeed)

end Emit.LineEnding

/-! ### Comments -/

/-- Words have no blanks in them. -/
theorem Text.not_isBlank_of_words {s word : String} (h : word ∈ words s) : ∀ c ∈ word.toList, ¬ isBlank c := by
  have hfrom : ∀ text current : List Char, (∀ c ∈ current, ¬ isBlank c) →
      ∀ word ∈ wordsFrom current text, ∀ c ∈ word, ¬ isBlank c := by
    intro text
    induction text with
    | nil =>
        intro current hcurrent word hword
        rw [wordsFrom] at hword
        split at hword
        · cases hword
        · rw [List.mem_singleton.mp hword]
          exact fun c hc => hcurrent c (List.mem_reverse.mp hc)
    | cons d rest ih =>
        intro current hcurrent word hword
        rw [wordsFrom] at hword
        by_cases hblank : isBlank d
        · rw [if_pos hblank] at hword
          split at hword
          · exact ih [] (by simp) word hword
          · rcases List.mem_cons.mp hword with rfl | hword
            · exact fun c hc => hcurrent c (List.mem_reverse.mp hc)
            · exact ih [] (by simp) word hword
        · rw [if_neg hblank] at hword
          exact ih (d :: current) (List.forall_mem_cons.mpr ⟨hblank, hcurrent⟩) word hword
  obtain ⟨chars, hchars, rfl⟩ := List.mem_map.mp h
  rw [String.toList_ofList]
  exact hfrom s.toList [] (by simp) chars hchars

namespace Emit

open Document (Route readRoutes routeName)
open Request (Buckets Location)
open Zod (Expr NameWord StringWord)

variable {style : Style} {route : Route} {routes : List Route}

/-- The words of a summary stand on one line. -/
theorem onOneLine_words {summary : String} : ∀ word ∈ Text.words summary, OnOneLine word := by
  intro word hword c hc hbreak
  have hblank := Text.not_isBlank_of_words hword c hc
  rcases breaksLine_iff.mp hbreak with rfl | rfl <;> exact hblank (by decide)

/-- The label of a route breaks a line where its path does. -/
theorem onOneLine_label : OnOneLine route.label ↔ OnOneLine route.path := by
  have hmethod : OnOneLine route.method.label := by
    have hall : (route.method.token.toList.map Char.toUpper).all (!breaksLine ·) := by
      cases route.method <;> rfl
    intro c hc
    rw [Http.Method.label, String.toUpper, String.toList_map] at hc
    simpa using List.all_eq_true.mp hall c hc
  unfold Route.label Document.label
  rw [OnOneLine.append_iff, OnOneLine.append_iff]
  exact ⟨And.right, fun h => ⟨⟨hmethod, by decide⟩, h⟩⟩

theorem onOneLine_docText : OnOneLine (docText route) ↔ OnOneLine route.path := by
  rw [← onOneLine_label]
  unfold docText
  split
  · rfl
  · next words hwords =>
      have hsummary : OnOneLine (Text.joined " " ((route.summary.map Text.words).getD [])) := by
        refine .joined (by decide) fun word hword => ?_
        cases hsome : route.summary with
        | none => simp [hsome] at hword
        | some summary =>
            rw [hsome] at hword
            exact onOneLine_words word hword
      rw [OnOneLine.append_iff, OnOneLine.append_iff]
      exact ⟨fun h => h.1.1, fun h => ⟨⟨h, by decide⟩, hsummary⟩⟩

/-- Breaking end marks adds backslashes alone. -/
theorem mem_brokenEndMarks {c : Char} {text : List Char} (h : c ≠ '\\') :
    c ∈ brokenEndMarks text ↔ c ∈ text := by
  induction text using brokenEndMarks.induct with
  | case1 rest ih => simp [brokenEndMarks, ih, h]
  | case2 d rest hother ih => rw [brokenEndMarks, List.mem_cons, List.mem_cons, ih]; exact hother
  | case3 => rfl

/-- **The comment above a constant stands on one line exactly when the path does.** -/
theorem onOneLine_docComment : OnOneLine (docComment route) ↔ OnOneLine route.path := by
  rw [← onOneLine_docText]
  unfold docComment
  rw [OnOneLine.append_iff, OnOneLine.append_iff]
  have hbroken : OnOneLine (String.ofList (brokenEndMarks (docText route).toList)) ↔ OnOneLine (docText route) := by
    unfold OnOneLine
    rw [String.toList_ofList]
    refine forall_congr' fun c => ?_
    by_cases hslash : c = '\\'
    · have hplain : ¬ breaksLine c := by
        rw [hslash]
        decide
      exact iff_of_true (fun _ => hplain) (fun _ => hplain)
    · rw [mem_brokenEndMarks hslash]
  rw [hbroken]
  exact ⟨fun h => h.1.2, fun h => ⟨⟨by decide, h⟩, by decide⟩⟩

/-! ### The other lines -/

theorem onOneLine_quoted (s : String) : OnOneLine (Text.quoted s) := by
  rw [← StringWord.text_ofString]
  exact (StringWord.ofString s).onOneLine

theorem onOneLine_importLine : OnOneLine style.importLine :=
  .between (by decide) (onOneLine_quoted style.zodModule) (by decide)

theorem onOneLine_objectKey (key : String) : OnOneLine (Expr.objectKey key) := by
  unfold Expr.objectKey
  by_cases hkey : Expr.isIdentifier key
  · rw [if_pos hkey]
    exact NameWord.onOneLine ⟨key, hkey⟩
  · rw [if_neg hkey]
    exact onOneLine_quoted key

theorem onOneLine_bucketLine (h : Made route) (location : Location) :
    OnOneLine (style.bucketLine route location) := by
  have hindent : OnOneLine style.indent.text := by
    cases style.indent <;> decide
  have hname : OnOneLine location.bucketName := by
    cases location <;> decide
  have hmembers : OnOneLine (Expr.object (route.params.bucket location)).text := by
    unfold Expr.object
    rw [Expr.text_ofText]
    refine .between (by decide) (.joined (by decide) fun member hmember => ?_) (by decide)
    obtain ⟨⟨key, value⟩, hentry, rfl⟩ := List.mem_map.mp hmember
    obtain ⟨ps, hps⟩ := h.params
    obtain ⟨p, -, hvalue⟩ := Buckets.exists_of_mem_bucket hps hentry
    exact ((onOneLine_objectKey key).append (by decide)).append (Request.Parameter.onOneLine_expression hvalue)
  exact (((hindent.append hname).append (by decide)).append hmembers).append (by decide)

theorem onOneLine_headLine (h : Made route) (hsuffix : OnOneLine style.suffix) :
    OnOneLine ("export const " ++ style.constantName route ++ " = \x7b") := by
  obtain ⟨raw, hraw⟩ := h.name
  have hname : OnOneLine route.name := NameWord.onOneLine ⟨route.name, hraw ▸ Document.isIdentifier_routeName raw⟩
  exact .between (by decide) (hname.append hsuffix) (by decide)

/-- The lines of a route stand on one line each, the comment aside. -/
theorem onOneLine_routeLines (h : Made route) (hsuffix : OnOneLine style.suffix) :
    (∀ line ∈ style.routeLines route, OnOneLine line) ↔ (style.docs → OnOneLine route.path) := by
  have hothers : ∀ line ∈ ["export const " ++ style.constantName route ++ " = \x7b"] ++
      Location.all.map (style.bucketLine route) ++ ["\x7d;"], OnOneLine line := by
    rw [List.forall_mem_append, List.forall_mem_append, List.forall_mem_singleton, List.forall_mem_singleton,
      List.forall_mem_map]
    exact ⟨⟨onOneLine_headLine h hsuffix, fun location _ => onOneLine_bucketLine h location⟩, by decide⟩
  unfold Style.routeLines
  rw [List.append_assoc, List.append_assoc, List.forall_mem_append, ← List.append_assoc ["export const " ++ _ ++ _],
    and_iff_left hothers]
  cases style.docs with
  | false => simp
  | true => simp [onOneLine_docComment]

/-- Without its comment a route has six lines. -/
theorem length_routeLines : (style.routeLines route).length = if style.docs then 7 else 6 := by
  unfold Style.routeLines
  cases style.docs <;> rfl

/-! ### Modules -/

/-- The text of a module falls apart into its lines: the banner, the import, and for each route an empty line and its
block of lines, each with the ending that was chosen, and there is no other line break. -/
structure LaidOut (style : Style) (routes : List Route) : Prop where
  lines : style.lineEnding.split (style.moduleText routes) =
    banner :: style.importLine :: (routes.flatMap fun route => "" :: style.routeLines route) ++ [""]
  block : ∀ route ∈ routes, (style.routeLines route).length = if style.docs then 7 else 6
  whole : ∀ line ∈ style.lineEnding.split (style.moduleText routes), OnOneLine line
  feeds : style.lineEnding = .crlf → ∀ front back, (style.moduleText routes).toList = front ++ '\n' :: back →
    ∃ before, front = before ++ ['\r']
  returns : style.lineEnding = .lf → '\r' ∉ (style.moduleText routes).toList

theorem laidOut_of_lines (h : ∀ line ∈ style.moduleLines routes, OnOneLine line) : LaidOut style routes := by
  have htext := toList_moduleText style routes
  have hsplit : style.lineEnding.split (style.moduleText routes) = style.moduleLines routes ++ [""] := by
    unfold LineEnding.split
    rw [htext]
    show (style.lineEnding.pieces ((style.moduleLines routes).flatMap fun line =>
      (line ++ style.lineEnding.text).toList)).map _ = _
    rw [LineEnding.pieces_lines h, List.map_append, List.map_map]
    simp
  refine ⟨hsplit, fun route _ => length_routeLines, ?_, ?_, ?_⟩
  · rw [hsplit, List.forall_mem_append]
    exact ⟨h, by decide⟩
  · intro hcrlf front back heq
    rw [htext] at heq
    unfold Style.ended at heq
    rw [hcrlf] at heq
    exact LineEnding.return_before h heq
  · intro hlf
    rw [htext]
    unfold Style.ended
    rw [hlf]
    exact LineEnding.return_notMem h

/-- The lines of a module stand on one line each exactly when the paths do that are written. -/
theorem onOneLine_moduleLines (hmade : ∀ route ∈ routes, Made route) (hsuffix : OnOneLine style.suffix) :
    (∀ line ∈ style.moduleLines routes, OnOneLine line) ↔
      (style.docs → ∀ route ∈ routes, OnOneLine route.path) := by
  have hbanner : OnOneLine banner := by decide
  have hempty : OnOneLine "" := by decide
  have hroutes : (∀ line ∈ routes.flatMap fun route => "" :: style.routeLines route, OnOneLine line) ↔
      ∀ route ∈ routes, style.docs → OnOneLine route.path := by
    rw [List.forall_mem_flatMap]
    refine forall₂_congr fun route hroute => ?_
    rw [List.forall_mem_cons, and_iff_right hempty, onOneLine_routeLines (hmade route hroute) hsuffix]
  unfold Style.moduleLines
  rw [List.forall_mem_cons, List.forall_mem_cons, and_iff_right hbanner, and_iff_right onOneLine_importLine, hroutes]
  exact ⟨fun h hdocs route hroute => h route hroute hdocs, fun h route hroute hdocs => h hdocs route hroute⟩

theorem made_of_readRoutes {document : Json.Value} (h : readRoutes document = .ok routes) :
    ∀ route ∈ routes, Made route := by
  intro route hroute
  obtain ⟨operation, -, hread⟩ := Steps.exists_of_mem_results (Document.read_of_readRoutes h).1 hroute
  obtain ⟨-, -, hname, hparams⟩ := Document.Operation.read_eq_ok hread
  exact ⟨hname, hparams⟩

/-- **The lines of a module are those that were chosen, unless a path that is written breaks one.**  For the routes of
a document and a suffix without line breaks, the module falls apart into the banner, the import and the blocks of the
routes, and holds no other line break, exactly when comments are left out or every path stands on one line. -/
theorem laidOut_iff {document : Json.Value} (h : readRoutes document = .ok routes) (hsuffix : OnOneLine style.suffix) :
    LaidOut style routes ↔ (style.docs → ∀ route ∈ routes, OnOneLine route.path) := by
  have hlines := onOneLine_moduleLines (made_of_readRoutes h) hsuffix
  refine ⟨fun hlaid => hlines.mp fun line hline => ?_, fun hpaths => laidOut_of_lines (hlines.mpr hpaths)⟩
  refine hlaid.whole line ?_
  rw [hlaid.lines]
  exact List.mem_append_left _ hline

/-- A document with a line break in a path. -/
def brokenDocument : Json.Value :=
  .obj [("openapi", .str "3.0.3"), ("paths", .obj [("/a\nb", .obj [("get", .obj [])])])]

/-- Its route. -/
def brokenRoute : Route := ⟨routeName (Http.Method.get.token ++ " " ++ "/a\nb"), .get, "/a\nb", none, Buckets.empty⟩

theorem laidOut_iff_brokenPath : readRoutes brokenDocument = .ok [brokenRoute] ∧
    ¬ LaidOut Style.default [brokenRoute] ∧ LaidOut { Style.default with docs := false } [brokenRoute] := by
  have hread : readRoutes brokenDocument = .ok [brokenRoute] := rfl
  have hsuffix : OnOneLine Style.default.suffix := by decide
  have hbroken : ¬ OnOneLine brokenRoute.path := by decide
  refine ⟨hread, fun hlaid => ?_, ?_⟩
  · exact hbroken ((laidOut_iff hread hsuffix).mp hlaid rfl brokenRoute (List.mem_singleton_self _))
  · have hquiet : OnOneLine ({ Style.default with docs := false } : Style).suffix := hsuffix
    exact (laidOut_iff hread hquiet).mpr nofun

end Emit

end ZodRoutes
