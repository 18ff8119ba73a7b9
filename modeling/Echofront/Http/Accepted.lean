import Echofront.Http.RoundTrip

/-!
# Accepted and refused requests

Which requests `Request::parse` can give, and which error it gives for the raw texts that
it refuses.

* `WellFormed` is what every accepted request has.  `parse_wellFormed` reads it off the
  lines of the head.  In the other direction a well-formed request has a canonical form
  that parses back to it (`parse_canonical_read`), also when a CR stands inside a header.
* `Refused` is the error contract of `parse`: one error for each way in which the lines of
  the head can be malformed, and the first bad line decides.
-/

namespace Echofront

open Lib

namespace Request

/-! ## What is accepted -/

/-- A request that some raw text stands for.  `known` excludes the methods that
`Method::parse` does not give, such as `Other("GET")`. -/
structure WellFormed (r : Request) : Prop where
  method : IsToken r.method.asStr
  known : Method.parse r.method.asStr = r.method
  path : IsToken r.path
  version : IsToken r.version
  headers : ∀ h ∈ r.headers, IsReadHeader h
  body : ∃ text, r.body = asBytes text

/-- The lines of a head have no LF. -/
theorem not_mem_headLinesOf {head l : List Char} (h : l ∈ headLinesOf head) : '\n' ∉ l := by
  obtain ⟨m, hm, rfl⟩ := List.mem_map.mp h
  have hpre : trimEndMatches '\r' m <+: m := List.rdropWhile_prefix _ m
  exact fun hmem => not_mem_of_mem_splitOn hm (hpre.subset hmem)

theorem isToken_ofList {s w : List Char} (h : w ∈ splitWhitespace s) :
    IsToken (String.ofList w) := by
  rw [IsToken, String.toList_ofList]
  exact mem_splitWhitespace h

/-- The header of a line without LF. -/
theorem headerOf_read {l : List Char} {header : String × String} (hlf : '\n' ∉ l)
    (h : headerOf l = .ok header) : IsReadHeader header := by
  rw [headerOf] at h
  cases hcut : splitOnce [':'] l with
  | none => simp [hcut] at h
  | some cut =>
    obtain ⟨heq, hcolon⟩ := splitOnce_singleton_eq_some hcut
    rw [hcut] at h
    obtain rfl := Except.ok.inj h
    have hname : cut.1 ⊆ l := by
      rw [heq]
      exact List.subset_append_left _ _
    have hvalue : cut.2 ⊆ l := by
      rw [heq]
      exact List.Subset.trans (List.subset_cons_self _ _) (List.subset_append_right _ _)
    refine ⟨?_, ⟨?_, ?_⟩, ?_, ?_⟩ <;> simp only [String.toList_ofList]
    · exact fun hmem => hcolon (trim_subset _ hmem)
    · exact fun hmem => hlf (hname (trim_subset _ hmem))
    · exact trimmed_trim _
    · exact fun hmem => hlf (hvalue (trim_subset _ hmem))
    · exact trimmed_trim _

/-- The words of the request line of a head that is accepted. -/
theorem parseLines_words {x : List Char} {ls : List (List Char)} {body : List Char}
    {r : Request} (h : parseLines (x :: ls) body = .ok r) :
    ∃ method path rest, splitWhitespace x = method :: path :: rest := by
  have hno : ¬ ∃ e, parseLines (x :: ls) body = .error e := by
    rintro ⟨e, he⟩
    simp [h] at he
  rw [parseLines_eq_error_iff, not_or] at hno
  match hwords : splitWhitespace x with
  | [] => simp [hwords] at hno
  | [_] => simp [hwords] at hno
  | method :: path :: rest => exact ⟨method, path, rest, rfl⟩

theorem headLinesOf_ne_nil (head : List Char) : headLinesOf head ≠ [] := by
  simp [headLinesOf, List.splitOn_ne_nil]

/-- Every accepted request is well formed. -/
theorem parse_wellFormed {raw : String} {r : Request} (h : parse raw = .ok r) :
    WellFormed r := by
  obtain ⟨x, ls, hlines⟩ :=
    List.exists_cons_of_ne_nil (headLinesOf_ne_nil (splitHead raw.toList).1)
  rw [parse_eq, hlines] at h
  obtain ⟨method, path, rest, hwords⟩ := parseLines_words h
  obtain ⟨hheaders, hbody⟩ := parseLines_eq_ok h
  rw [parseLines_of_words hwords] at h
  cases hls : parseHeaders ls with
  | error e => simp [hls, Except.map] at h
  | ok hs =>
    rw [hls] at h
    obtain rfl := Except.ok.inj h
    refine ⟨?_, ?_, isToken_ofList (s := x) (by simp [hwords]), ?_, fun header hmem => ?_,
      _, hbody⟩
    · rw [Method.asStr_parse]
      exact isToken_ofList (s := x) (by simp [hwords])
    · rw [Method.asStr_parse]
    · cases rest with
      | nil => exact (by decide : IsToken "HTTP/1.1")
      | cons version rest => exact isToken_ofList (s := x) (by simp [hwords])
    · obtain ⟨l, hl, heq⟩ := hheaders header hmem
      exact headerOf_read (not_mem_headLinesOf (hlines ▸ List.mem_cons_of_mem _ hl)) heq

/-! ## The canonical form of an accepted request -/

/-- A character that is not whitespace is no CR. -/
theorem ne_of_isWhitespace {c : Char} (h : isWhitespace c = false) : c ≠ '\r' := by
  rintro rfl
  exact absurd h (by decide)

theorem getLast?_requestText (method path : String) {version : String} (hv : IsToken version) :
    (requestText method path version).toList.getLast? ≠ some '\r' := by
  have htext : (requestText method path version).toList =
      (method.toList ++ ' ' :: path.toList ++ [' ']) ++ version.toList := by
    simp [requestText]
  rw [htext, List.getLast?_append_of_ne_nil _ hv.1]
  exact fun he => ne_of_isWhitespace (hv.2 _ (List.mem_of_getLast? he)) rfl

/-- A header line ends with its value, or with the space before it. -/
theorem getLast?_headerText {h : String × String} (hh : IsReadHeader h) :
    (headerText h).toList.getLast? ≠ some '\r' := by
  have htext : (headerText h).toList = (h.1.toList ++ [':', ' ']) ++ h.2.toList := by
    simp [headerText]
  rw [htext]
  by_cases hvalue : h.2.toList = []
  · simp [hvalue]
  · rw [List.getLast?_append_of_ne_nil _ hvalue]
    exact fun he => ne_of_isWhitespace (hh.value.2.2 _ he) rfl

/-- The canonical form of a well-formed request parses to the request. -/
theorem parse_canonical_read {r : Request} (hr : WellFormed r) {body : String}
    (hbody : r.body = asBytes body) :
    parse (canonical r.method.asStr r.path r.version r.headers body) = .ok r := by
  have hlines : ∀ l ∈ (requestText r.method.asStr r.path r.version).toList ::
      r.headers.map (fun h => (headerText h).toList),
      trimEndMatches '\r' l = l ∧ '\n' ∉ l := by
    refine List.forall_mem_cons.mpr ⟨⟨?_, ?_⟩, fun l hl => ?_⟩
    · exact trimEndMatches_of_getLast? (getLast?_requestText _ _ hr.version)
    · exact (oneLine_requestText hr.method hr.path hr.version).2
    · obtain ⟨h, hmem, rfl⟩ := List.mem_map.mp hl
      have hh := hr.headers h hmem
      refine ⟨trimEndMatches_of_getLast? (getLast?_headerText hh), ?_⟩
      simp [toList_headerText, hh.name.1, hh.value.1]
  have hne : ∀ l ∈ r.headers.map (fun h => (headerText h).toList), l ≠ [] := by
    intro l hl
    obtain ⟨h, _, rfl⟩ := List.mem_map.mp hl
    exact headerText_ne_nil h
  rw [parse_crlf_of_trim (toList_canonical _ _ _ _ _) (fun l hl => (hlines l hl).1)
      (fun l hl => (hlines l hl).2) hne,
    parseLines_of_words (splitWhitespace_requestText hr.method hr.path hr.version),
    parseHeaders_read hr.headers]
  simp [Except.map, hr.known, ← hbody]

/-- The requests that `parse` gives are the well-formed ones, and each of them is what its
canonical form parses to. -/
theorem accepted_iff (r : Request) :
    ((∃ raw, parse raw = .ok r) ↔ WellFormed r) ∧
      ∀ raw body, parse raw = .ok r → r.body = asBytes body →
        parse (canonical r.method.asStr r.path r.version r.headers body) = .ok r := by
  refine ⟨⟨?_, fun hr => ?_⟩, fun raw body h hbody => ?_⟩
  · rintro ⟨raw, h⟩
    exact parse_wellFormed h
  · obtain ⟨body, hbody⟩ := hr.body
    exact ⟨_, parse_canonical_read hr hbody⟩
  · exact parse_canonical_read (parse_wellFormed h) hbody

/-! ## What is refused -/

/-- The error for a request line `x` and the lines `ls` after it.

* The request line has no word.
* It has one word, and so no path.
* It has a method and a path.  The error is that of the first line that is not empty and
has no colon. -/
inductive Refused (x : List Char) (ls : List (List Char)) : ParseError → Prop
  | empty (hx : splitWhitespace x = []) : Refused x ls .empty
  | malformedRequestLine {word : List Char} (hx : splitWhitespace x = [word]) :
      Refused x ls .malformedRequestLine
  | malformedHeader {before after : List (List Char)} {line : List Char}
      (hx : 2 ≤ (splitWhitespace x).length) (hls : ls = before ++ line :: after)
      (hbefore : ∀ l ∈ before, l ≠ [] → ':' ∈ l) (hne : line ≠ []) (hcolon : ':' ∉ line) :
      Refused x ls (.malformedHeader (String.ofList line))

/-- A line without a colon is reported as it is. -/
theorem headerOf_of_not_mem {line : List Char} (h : ':' ∉ line) :
    headerOf line = .error (.malformedHeader (String.ofList line)) := by
  rw [headerOf, splitOnce_singleton_eq_none_iff.mpr h]

/-- The first bad line decides the error of the headers. -/
theorem parseHeaders_error {ls : List (List Char)} {e : ParseError}
    (h : parseHeaders ls = .error e) :
    ∃ before line after, ls = before ++ line :: after ∧ (∀ l ∈ before, l ≠ [] → ':' ∈ l) ∧
      line ≠ [] ∧ ':' ∉ line ∧ e = .malformedHeader (String.ofList line) := by
  induction ls with
  | nil => simp at h
  | cons l ls ih =>
    by_cases hl : l = []
    · rw [hl, parseHeaders_cons_nil] at h
      obtain ⟨before, line, after, rfl, hbefore, hbad⟩ := ih h
      refine ⟨l :: before, line, after, rfl, ?_, hbad⟩
      exact List.forall_mem_cons.mpr ⟨fun hne => absurd hl hne, hbefore⟩
    · by_cases hcolon : ':' ∈ l
      · cases hhead : headerOf l with
        | error e' => exact absurd hcolon (headerOf_eq_error_iff.mp ⟨e', hhead⟩)
        | ok header =>
          cases hls : parseHeaders ls with
          | ok hs => simp [parseHeaders_cons hl, hhead, hls, Except.bind, Except.map] at h
          | error e' =>
            obtain rfl : e' = e := by
              simpa [parseHeaders_cons hl, hhead, hls, Except.bind, Except.map] using h
            obtain ⟨before, line, after, rfl, hbefore, hbad⟩ := ih hls
            refine ⟨l :: before, line, after, rfl, ?_, hbad⟩
            exact List.forall_mem_cons.mpr ⟨fun _ => hcolon, hbefore⟩
      · rw [parseHeaders_cons hl, headerOf_of_not_mem hcolon] at h
        exact ⟨[], l, ls, rfl, by simp, hl, hcolon, (Except.error.inj h).symm⟩

/-- A bad line after good ones is reported, whatever follows it. -/
theorem parseHeaders_of_bad {before : List (List Char)} {line : List Char}
    (hbefore : ∀ l ∈ before, l ≠ [] → ':' ∈ l) (hne : line ≠ []) (hcolon : ':' ∉ line)
    (after : List (List Char)) :
    parseHeaders (before ++ line :: after) = .error (.malformedHeader (String.ofList line)) := by
  rw [parseHeaders_append, parseHeaders_cons hne, headerOf_of_not_mem hcolon]
  cases hok : parseHeaders before with
  | ok hs => rfl
  | error e =>
    obtain ⟨l, hl, hlne, hlcolon⟩ := parseHeaders_eq_error_iff.mp ⟨e, hok⟩
    exact absurd (hbefore l hl hlne) hlcolon

theorem parseLines_refused {x : List Char} {ls : List (List Char)} {body : List Char}
    {e : ParseError} : parseLines (x :: ls) body = .error e ↔ Refused x ls e := by
  match hwords : splitWhitespace x with
  | [] =>
    have htrim := splitWhitespace_eq_nil_iff.mp hwords
    have herr : parseLines (x :: ls) body = .error .empty := by simp [parseLines, htrim]
    rw [herr]
    constructor
    · rintro ⟨⟩
      exact .empty hwords
    · intro h
      cases h with
      | empty => rfl
      | malformedRequestLine hx => simp [hwords] at hx
      | malformedHeader hx => simp [hwords] at hx
  | [word] =>
    have htrim : trim x ≠ [] := fun he => by simp [splitWhitespace_of_trim he] at hwords
    have herr : parseLines (x :: ls) body = .error .malformedRequestLine := by
      simp [parseLines, htrim, hwords]
    rw [herr]
    constructor
    · rintro ⟨⟩
      exact .malformedRequestLine hwords
    · intro h
      cases h with
      | empty hx => simp [hwords] at hx
      | malformedRequestLine => rfl
      | malformedHeader hx => simp [hwords] at hx
  | method :: path :: rest =>
    rw [parseLines_of_words hwords]
    constructor
    · intro h
      cases hls : parseHeaders ls with
      | ok hs => simp [hls, Except.map] at h
      | error e' =>
        obtain rfl : e' = e := by simpa [hls, Except.map] using h
        obtain ⟨before, line, after, heq, hbefore, hne, hcolon, rfl⟩ := parseHeaders_error hls
        exact .malformedHeader (by simp [hwords]) heq hbefore hne hcolon
    · intro h
      cases h with
      | empty hx => simp [hwords] at hx
      | malformedRequestLine hx => simp [hwords] at hx
      | malformedHeader _ heq hbefore hne hcolon =>
        rw [heq, parseHeaders_of_bad hbefore hne hcolon]
        rfl

/-- Wherever the text is cut, the first line of the head is the request line. -/
theorem headLinesOf_splitHead (raw : String) :
    ∃ ls, headLinesOf (splitHead raw.toList).1 = trimEndMatches '\r' (requestLine raw) :: ls := by
  have hcut := cut_splitHead raw.toList
  cases hafter : afterHead raw with
  | nil =>
    have hlines := lines_eq raw
    rw [hafter, List.append_nil] at hlines
    refine ⟨(headLines raw).map (trimEndMatches '\r'), ?_⟩
    rw [(cut_of_nil hafter hcut).1]
    show (lines raw).map (trimEndMatches '\r') = _
    rw [hlines, List.map_cons]
  | cons z ts =>
    rcases cut_cases hafter hcut with ⟨_, hhead, _⟩ | ⟨_, ms, hhead, _⟩
    · exact ⟨_, hhead⟩
    · exact ⟨_, hhead⟩

/-- The error contract: which error `parse` gives, and when. -/
theorem refused_iff (raw : String) (e : ParseError) :
    parse raw = .error e ↔ Refused (trimEndMatches '\r' (requestLine raw))
      (headLinesOf (splitHead raw.toList).1).tail e := by
  obtain ⟨ls, hls⟩ := headLinesOf_splitHead raw
  rw [parse_eq, hls]
  exact parseLines_refused

end Request

end Echofront
