import Echofront.Http.Head

/-!
# Canonical requests

A request as a client writes it, with CRLF after every line of the head and a space
after the colon of a header, parses back to what was written.

`parse_crlf` is the part about lines: a head of lines without CR and LF is what the
parser reads, whatever the body is, since its first blank line is one that `splitHead`
finds.  The rest is that a request line splits into its three words (`words_requestText`)
and a header line at its first colon (`headerOf_headerText`).
-/

namespace Echofront

open Lib

namespace Request

/-! ## What is written -/

def requestText (method path version : String) : String :=
  method ++ " " ++ path ++ " " ++ version

def headerText (header : String × String) : String := header.1 ++ ": " ++ header.2

/-- A request in canonical form. -/
def canonical (method path version : String) (headers : List (String × String))
    (body : String) : String :=
  requestText method path version ++ "\r\n" ++
    String.join (headers.map (fun h => headerText h ++ "\r\n")) ++ "\r\n" ++ body

/-- A word of a request line. -/
def IsToken (s : String) : Prop := s.toList ≠ [] ∧ ∀ c ∈ s.toList, isWhitespace c = false

/-- A text without CR and LF. -/
def OneLine (s : String) : Prop := '\r' ∉ s.toList ∧ '\n' ∉ s.toList

/-- A header that is written as it is read. -/
structure IsHeader (header : String × String) : Prop where
  colon : ':' ∉ header.1.toList
  name : OneLine header.1 ∧ Trimmed header.1.toList
  value : OneLine header.2 ∧ Trimmed header.2.toList

/-- A header that is read as it was written.  It may have a CR inside its texts, which a
header that is written does not. -/
structure IsReadHeader (header : String × String) : Prop where
  colon : ':' ∉ header.1.toList
  name : '\n' ∉ header.1.toList ∧ Trimmed header.1.toList
  value : '\n' ∉ header.2.toList ∧ Trimmed header.2.toList

theorem IsHeader.read {header : String × String} (h : IsHeader header) :
    IsReadHeader header :=
  ⟨h.colon, ⟨h.name.1.2, h.name.2⟩, h.value.1.2, h.value.2⟩

instance (s : String) : Decidable (IsToken s) :=
  decidable_of_iff (s.toList ≠ [] ∧ s.toList.all (fun c => !isWhitespace c) = true)
    (by simp [IsToken, List.all_eq_true])

instance (s : String) : Decidable (OneLine s) := inferInstanceAs (Decidable (_ ∧ _))

instance (header : String × String) : Decidable (IsHeader header) :=
  decidable_of_iff (':' ∉ header.1.toList ∧ (OneLine header.1 ∧ Trimmed header.1.toList) ∧
      OneLine header.2 ∧ Trimmed header.2.toList)
    ⟨fun h => ⟨h.1, h.2.1, h.2.2⟩, fun h => ⟨h.colon, h.name, h.value⟩⟩

/-! ## Lines with CRLF -/

/-- Some lines, each with its CRLF. -/
def crlfText (ls : List (List Char)) : List Char := ls.flatMap (fun l => l ++ ['\r', '\n'])

theorem splitOn_crlfText {ls : List (List Char)} (h : ∀ l ∈ ls, '\n' ∉ l) (body : List Char) :
    (crlfText ls ++ body).splitOn '\n' =
      ls.map (fun l => l ++ ['\r']) ++ body.splitOn '\n' := by
  induction ls with
  | nil => rfl
  | cons l ls ih =>
    have hl : '\n' ∉ l ++ ['\r'] := by simp [h l List.mem_cons_self]
    have hcons : crlfText (l :: ls) ++ body = (l ++ ['\r']) ++ '\n' :: (crlfText ls ++ body) := by
      simp [crlfText]
    rw [hcons, List.splitOn_append_cons_self_of_not_mem hl,
      ih (fun m hm => h m (List.mem_cons_of_mem _ hm))]
    rfl

theorem getLast?_textOf {ls : List (List Char)} (h : ls ≠ []) :
    (textOf (ls.map (fun l => l ++ ['\r']))).getLast? = some '\r' := by
  obtain ⟨ms, l, rfl⟩ := (List.eq_nil_or_concat' ls).resolve_left h
  rw [List.map_append, List.map_singleton, textOf]
  by_cases hms : ms = []
  · simp [hms]
  · rw [intercalate_append_cons (by simpa using hms), List.intercalate_singleton,
      ← List.cons_append, ← List.append_assoc]
    exact List.getLast?_concat

/-- A head of lines without LF and with no CR at their ends, of which only the request
line may be empty, is what the parser reads. -/
theorem parse_crlf_of_trim {raw : String} {x : List Char} {ls : List (List Char)}
    {body : List Char} (hraw : raw.toList = crlfText (x :: ls ++ [[]]) ++ body)
    (hcr : ∀ l ∈ x :: ls, trimEndMatches '\r' l = l) (hlf : ∀ l ∈ x :: ls, '\n' ∉ l)
    (hne : ∀ l ∈ ls, l ≠ []) : parse raw = parseLines (x :: ls) body := by
  have hlines : lines raw =
      (x ++ ['\r']) :: (ls.map (fun l => l ++ ['\r']) ++ ['\r'] :: body.splitOn '\n') := by
    have hall : ∀ l ∈ x :: ls ++ [[]], '\n' ∉ l :=
      List.forall_mem_append.mpr ⟨hlf, List.forall_mem_singleton.mpr List.not_mem_nil⟩
    rw [lines, hraw, splitOn_crlfText hall]
    simp
  have hnot : ∀ l ∈ ls.map (fun l => l ++ ['\r']), (!isBlank l) = true := by
    intro l hl
    obtain ⟨m, hm, rfl⟩ := List.mem_map.mp hl
    have hm := hne m hm
    simp [isBlank, hm]
  have hhead : requestLine raw :: headLines raw = (x :: ls).map (fun l => l ++ ['\r']) := by
    rw [requestLine, headLines, hlines, List.tail_cons, List.takeWhile_append_of_pos hnot]
    simp [isBlank]
  have hafter : afterHead raw = ['\r'] :: body.splitOn '\n' := by
    rw [afterHead, hlines, List.tail_cons, List.dropWhile_append_of_pos hnot]
    simp [isBlank]
  have hfinds : FindsBlank raw := by
    refine Or.inl ⟨by rw [hafter]; rfl, ?_⟩
    rw [toList_headText, hhead]
    exact getLast?_textOf (List.cons_ne_nil _ _)
  have htrim : (requestLine raw :: headLines raw).map (trimEndMatches '\r') = x :: ls := by
    rw [hhead, List.map_map]
    refine (List.map_congr_left (fun l hl => ?_)).trans (List.map_id _)
    exact (trimEndMatches_concat _ _).trans (hcr l hl)
  rcases cut_cases hafter (cut_splitHead raw.toList) with ⟨_, hcut, hbody⟩ | ⟨hnil, _⟩
  · rw [textOf_splitOn] at hbody
    rw [parse_eq, hcut, hbody, htrim]
  · exact absurd (hnil hfinds) (List.splitOn_ne_nil _ _)

theorem parse_crlf {raw : String} {x : List Char} {ls : List (List Char)} {body : List Char}
    (hraw : raw.toList = crlfText (x :: ls ++ [[]]) ++ body)
    (hcr : ∀ l ∈ x :: ls, '\r' ∉ l) (hlf : ∀ l ∈ x :: ls, '\n' ∉ l)
    (hne : ∀ l ∈ ls, l ≠ []) : parse raw = parseLines (x :: ls) body :=
  parse_crlf_of_trim hraw (fun l hl => trimEndMatches_of_not_mem (hcr l hl)) hlf hne

/-! ## The request line and the headers -/

theorem IsToken.oneLine {s : String} (h : IsToken s) : OneLine s :=
  ⟨fun hmem => absurd (h.2 _ hmem) (by decide), fun hmem => absurd (h.2 _ hmem) (by decide)⟩

/-- The words of a request line. -/
theorem splitWhitespace_requestText {method path version : String} (hm : IsToken method)
    (hp : IsToken path) (hv : IsToken version) :
    splitWhitespace (requestText method path version).toList =
      [method.toList, path.toList, version.toList] := by
  have htext : (requestText method path version).toList =
      method.toList ++ ' ' :: (path.toList ++ ' ' :: version.toList) := by
    simp [requestText]
  have hspace : isWhitespace ' ' = true := by decide
  rw [htext, splitWhitespace_append hspace, splitWhitespace_append hspace,
    splitWhitespace_word hm.1 hm.2, splitWhitespace_word hp.1 hp.2,
    splitWhitespace_word hv.1 hv.2]
  rfl

theorem toList_headerText (h : String × String) :
    (headerText h).toList = h.1.toList ++ ':' :: ' ' :: h.2.toList := by
  simp [headerText]

/-- A header line is cut at its first colon, and the space after it is trimmed. -/
theorem headerOf_headerText {h : String × String} (hh : IsReadHeader h) :
    headerOf (headerText h).toList = .ok h := by
  have hspace : isWhitespace ' ' = true := by decide
  rw [headerOf, toList_headerText, splitOnce_singleton hh.colon]
  simp only [trim_cons hspace, trim_of_trimmed hh.name.2, trim_of_trimmed hh.value.2,
    String.ofList_toList]

theorem headerText_ne_nil (h : String × String) : (headerText h).toList ≠ [] := by
  rw [toList_headerText]
  simp

theorem parseHeaders_read {headers : List (String × String)}
    (hh : ∀ h ∈ headers, IsReadHeader h) :
    parseHeaders (headers.map (fun h => (headerText h).toList)) = .ok headers := by
  induction headers with
  | nil => rfl
  | cons h hs ih =>
    rw [List.map_cons, parseHeaders_cons (headerText_ne_nil h),
      headerOf_headerText (hh h List.mem_cons_self),
      ih (fun g hg => hh g (List.mem_cons_of_mem _ hg))]
    rfl

theorem parseHeaders_headerText {headers : List (String × String)}
    (hh : ∀ h ∈ headers, IsHeader h) :
    parseHeaders (headers.map (fun h => (headerText h).toList)) = .ok headers :=
  parseHeaders_read (fun h hmem => (hh h hmem).read)

/-- The lines of a canonical request have no CR and LF of their own. -/
theorem oneLine_headerText {h : String × String} (hh : IsHeader h) :
    OneLine (headerText h) := by
  simp [OneLine, toList_headerText, hh.name.1.1, hh.name.1.2, hh.value.1.1, hh.value.1.2]

theorem oneLine_requestText {method path version : String} (hm : IsToken method)
    (hp : IsToken path) (hv : IsToken version) : OneLine (requestText method path version) := by
  simp [OneLine, requestText, hm.oneLine.1, hm.oneLine.2, hp.oneLine.1, hp.oneLine.2,
    hv.oneLine.1, hv.oneLine.2]

theorem toList_canonical (method path version : String) (headers : List (String × String))
    (body : String) :
    (canonical method path version headers body).toList =
      crlfText ((requestText method path version).toList ::
        headers.map (fun h => (headerText h).toList) ++ [[]]) ++ body.toList := by
  simp [canonical, crlfText, List.flatMap_map]

/-- A canonical request parses back to what was written, whatever its body is. -/
theorem parse_canonical {method path version : String} {headers : List (String × String)}
    (hm : IsToken method) (hp : IsToken path) (hv : IsToken version)
    (hh : ∀ h ∈ headers, IsHeader h) (body : String) :
    parse (canonical method path version headers body) = .ok
      { method := .parse method
        path := path
        version := version
        headers := headers
        body := asBytes body } ∧
    (Method.parse method).asStr = method := by
  have hline : ∀ l ∈ (requestText method path version).toList ::
      headers.map (fun h => (headerText h).toList), '\r' ∉ l ∧ '\n' ∉ l := by
    refine List.forall_mem_cons.mpr ⟨oneLine_requestText hm hp hv, fun l hl => ?_⟩
    obtain ⟨h, hmem, rfl⟩ := List.mem_map.mp hl
    exact oneLine_headerText (hh h hmem)
  have hne : ∀ l ∈ headers.map (fun h => (headerText h).toList), l ≠ [] := by
    intro l hl
    obtain ⟨h, _, rfl⟩ := List.mem_map.mp hl
    rw [toList_headerText]
    simp
  refine ⟨?_, Method.asStr_parse method⟩
  rw [parse_crlf (toList_canonical method path version headers body)
      (fun l hl => (hline l hl).1) (fun l hl => (hline l hl).2) hne,
    parseLines_of_words (splitWhitespace_requestText hm hp hv), parseHeaders_headerText hh]
  simp [Except.map]

/-- A request with an empty value, a colon in a value and blank lines in its body. -/
theorem parse_canonical_two :
    parse (canonical "POST" "/submit" "HTTP/1.1" [("Host", "h:80"), ("X-Empty", "")]
        "a\n\nb\r\n\r\nc") = .ok
      { method := .post
        path := "/submit"
        version := "HTTP/1.1"
        headers := [("Host", "h:80"), ("X-Empty", "")]
        body := asBytes "a\n\nb\r\n\r\nc" } :=
  (parse_canonical (by decide) (by decide) (by decide) (by decide) _).1

end Request

end Echofront
