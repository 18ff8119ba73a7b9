import Echofront.Http.Parse

/-!
# Where the head ends

The comment on `Request::parse` says that the body is everything after the blank line.
A line ends with LF or CRLF, so a blank line is empty or a lone carriage return.

* `HeadEnds` is the promise for one raw request: the headers come from the lines before
  the first blank line, the body is the text after it, and the body does not make the
  parse fail.
* `splitHead` does not look for a blank line.  It looks for CRLF CRLF in the whole text,
  and for LF LF only when there is none; LF CRLF it does not see.  `cut_cases` compares
  its cut with the first blank line, and `headEnds_iff` says which requests keep the
  promise.
* `headEnds_fails` is a request that does not: a line of its body becomes a header.
-/

namespace Echofront

open Lib

namespace Request

/-- The lines of a raw request, with their carriage returns. -/
def lines (raw : String) : List (List Char) := raw.toList.splitOn '\n'

/-- A line that is empty after its trailing carriage return is removed. -/
def isBlank (line : List Char) : Bool := line == [] || line == ['\r']

def textOf (ls : List (List Char)) : List Char := ['\n'].intercalate ls

def requestLine (raw : String) : List Char := (lines raw).headD []

/-- The lines after the request line and before the first blank line. -/
def headLines (raw : String) : List (List Char) :=
  (lines raw).tail.takeWhile (fun l => !isBlank l)

/-- The first blank line and the lines after it. -/
def afterHead (raw : String) : List (List Char) :=
  (lines raw).tail.dropWhile (fun l => !isBlank l)

/-- The text before the first blank line, without the LF at its end. -/
def headText (raw : String) : String :=
  String.ofList (textOf (requestLine raw :: headLines raw))

/-- The text after the first blank line. -/
def bodyText (raw : String) : String := String.ofList (textOf (afterHead raw).tail)

/-- The head of a raw request ends at its first blank line: the headers come from the
lines before it, the body is the text after it, and a parse that fails does so on the
head alone. -/
def HeadEnds (raw : String) : Prop :=
  (∀ req, parse raw = .ok req →
    (∀ header ∈ req.headers, ∃ l ∈ headLines raw,
      headerOf (trimEndMatches '\r' l) = .ok header) ∧
    req.body = asBytes (bodyText raw)) ∧
  ∀ e, parse raw = .error e → parse (headText raw) = .error e

/-- The head is malformed: its request line has fewer than two words, or one of the
lines before the blank line is not empty and has no colon. -/
def MalformedHead (raw : String) : Prop :=
  (splitWhitespace (trimEndMatches '\r' (requestLine raw))).length < 2 ∨
    ∃ l ∈ (headLines raw).map (trimEndMatches '\r'), l ≠ [] ∧ ':' ∉ l

/-- The first blank line is one that `splitHead` finds: it ends with CRLF and so does the
line before it, or it ends with LF and there is no CRLF CRLF in the whole text. -/
def FindsBlank (raw : String) : Prop :=
  ((afterHead raw).head? = some ['\r'] ∧ (headText raw).toList.getLast? = some '\r') ∨
    ((afterHead raw).head? = some [] ∧ ¬ crlfCrlf <:+: raw.toList)

/-! ## Lines and text -/

theorem lines_eq (raw : String) :
    lines raw = requestLine raw :: headLines raw ++ afterHead raw := by
  obtain ⟨l, ls, heq⟩ := List.exists_cons_of_ne_nil (List.splitOn_ne_nil '\n' raw.toList)
  have hl : lines raw = l :: ls := heq
  rw [requestLine, headLines, afterHead, List.cons_append, List.takeWhile_append_dropWhile, hl]
  rfl

theorem isBlank_headLines {raw : String} {l : List Char} (h : l ∈ headLines raw) :
    isBlank l = false := by
  simpa using List.mem_takeWhile_imp h

theorem isBlank_of_afterHead {raw : String} {z : List Char} {ts : List (List Char)}
    (h : afterHead raw = z :: ts) : isBlank z = true := by
  have hhead := List.head?_dropWhile_not (fun l => !isBlank l) (lines raw).tail
  have hdrop : (lines raw).tail.dropWhile (fun l => !isBlank l) = z :: ts := h
  rw [hdrop] at hhead
  simpa using hhead

theorem textOf_lines (raw : String) : textOf (lines raw) = raw.toList :=
  List.intercalate_splitOn '\n'

theorem textOf_splitOn (xs : List Char) : textOf (xs.splitOn '\n') = xs :=
  List.intercalate_splitOn '\n'

theorem toList_headText (raw : String) :
    (headText raw).toList = textOf (requestLine raw :: headLines raw) :=
  String.toList_ofList

/-- The text of a request with a blank line that something follows. -/
theorem toList_eq {raw : String} {z : List Char} {ts : List (List Char)}
    (h : afterHead raw = z :: ts) (hts : ts ≠ []) :
    raw.toList = (headText raw).toList ++ '\n' :: (z ++ '\n' :: textOf ts) := by
  rw [← textOf_lines, lines_eq, h, toList_headText, textOf,
    intercalate_append_cons (List.cons_ne_nil _ _), List.intercalate_cons_of_ne_nil hts]
  simp [textOf]

theorem headLinesOf_concat (xs : List Char) :
    headLinesOf (xs ++ ['\r']) = headLinesOf xs := by
  have hcr : '\n' ∉ ['\r'] := by decide
  obtain ⟨ls, l, hxs, happ⟩ := splitOn_append_of_not_mem hcr xs
  simp only [headLinesOf, hxs, happ, List.map_append, List.map_cons, List.map_nil,
    trimEndMatches_concat]

/-! ## The cut and the first blank line -/

/-- Every blank line becomes an empty one. -/
theorem trimEndMatches_of_isBlank {l : List Char} (h : isBlank l = true) :
    trimEndMatches '\r' l = [] := by
  have hl : l = [] ∨ l = ['\r'] := by simpa [isBlank] using h
  rcases hl with rfl | rfl <;> rfl

/-- A blank line that `splitHead` finds, and that something follows, is a CRLF CRLF, or
an LF LF of a text without CRLF CRLF. -/
theorem FindsBlank.occurrence {raw : String} (hfinds : FindsBlank raw) {z : List Char}
    {ts : List (List Char)} (h : afterHead raw = z :: ts) (hts : ts ≠ []) :
    (∃ head, (headText raw).toList = head ++ ['\r'] ∧
      raw.toList = head ++ crlfCrlf ++ textOf ts) ∨
    (¬ crlfCrlf <:+: raw.toList ∧ raw.toList = (headText raw).toList ++ lfLf ++ textOf ts) := by
  have hraw := toList_eq h hts
  rcases hfinds with ⟨hz, hcr⟩ | ⟨hz, hno⟩
  · obtain rfl : z = ['\r'] := by simpa [h] using hz
    obtain ⟨head, hhead⟩ := List.getLast?_eq_some_iff.mp hcr
    refine Or.inl ⟨head, hhead, ?_⟩
    rw [hraw, hhead]
    simp [crlfCrlf]
  · obtain rfl : z = [] := by simpa [h] using hz
    refine Or.inr ⟨hno, ?_⟩
    rw [hraw]
    simp [lfLf]

/-- A blank line between two LFs is the first blank line, or it comes later and has more
text before it. -/
theorem blank_line_cases {raw : String} {z : List Char} {ts : List (List Char)}
    (h : afterHead raw = z :: ts) {xs z' ys : List Char} (hlf : '\n' ∉ z')
    (hblank : isBlank z' = true) (hraw : raw.toList = xs ++ '\n' :: (z' ++ '\n' :: ys)) :
    (z' = z ∧ xs = (headText raw).toList ∧ ys = textOf ts ∧
      xs.splitOn '\n' = requestLine raw :: headLines raw) ∨
    (headText raw).toList.length < xs.length ∧ ∃ ms,
      xs.splitOn '\n' = requestLine raw :: headLines raw ++ z :: ms ∧
      ts = ms ++ z' :: ys.splitOn '\n' := by
  have hlines : requestLine raw :: headLines raw ++ z :: ts =
      xs.splitOn '\n' ++ z' :: ys.splitOn '\n' := by
    rw [← splitOn_append_line hlf, ← hraw, ← h]
    exact (lines_eq raw).symm
  rcases append_cons_first (p := isBlank) (fun _ => isBlank_headLines) (List.splitOn_ne_nil _ _)
      hblank hlines with ⟨hxs, hz, hys⟩ | ⟨ms, hxs, hts⟩
  · refine Or.inl ⟨hz, ?_, ?_, hxs⟩
    · rw [toList_headText, ← hxs, textOf_splitOn]
    · rw [← hys, textOf_splitOn]
  · refine Or.inr ⟨?_, ms, hxs, hts⟩
    rw [← textOf_splitOn xs, hxs, toList_headText, textOf, textOf,
      intercalate_append_cons (List.cons_ne_nil _ _), List.length_append, List.length_cons]
    omega

/-- The cut of a request with a blank line.  Either the first blank line is one that
`splitHead` finds, and it cuts there, or it cuts later or not at all. -/
theorem cut_cases {raw : String} {z : List Char} {ts : List (List Char)}
    (h : afterHead raw = z :: ts) {head body : List Char} (hcut : Cut raw.toList head body) :
    (FindsBlank raw ∧
      headLinesOf head = (requestLine raw :: headLines raw).map (trimEndMatches '\r') ∧
      body = textOf ts) ∨
    ((FindsBlank raw → ts = []) ∧ ∃ ms,
      headLinesOf head =
        (requestLine raw :: headLines raw ++ z :: ms).map (trimEndMatches '\r') ∧
      ((body = [] ∧ ts = ms) ∨ ∃ z', ts = ms ++ z' :: body.splitOn '\n')) := by
  cases hcut with
  | crlf heq hfirst =>
    have hcr : raw.toList = (head ++ ['\r']) ++ '\n' :: (['\r'] ++ '\n' :: body) := by
      rw [heq]
      simp [crlfCrlf]
    rcases blank_line_cases h (by decide) rfl hcr with
      ⟨hz, htext, hbody, hlines⟩ | ⟨hlater, ms, hlines, hts⟩
    · refine Or.inl ⟨Or.inl ⟨by rw [h, hz]; rfl, by rw [← htext]; simp⟩, ?_, hbody⟩
      rw [← headLinesOf_concat, headLinesOf, hlines]
    · refine Or.inr ⟨fun hfinds => ?_, ms, ?_, Or.inr ⟨_, hts⟩⟩
      · by_contra hne
        rcases hfinds.occurrence h hne with ⟨head', hhead', hraw⟩ | ⟨hno, _⟩
        · have hle := hfirst head' _ hraw
          rw [hhead', List.length_append, List.length_append] at hlater
          omega
        · exact hno ⟨head, body, heq.symm⟩
      · rw [← headLinesOf_concat, headLinesOf, hlines]
  | lf hno heq hfirst =>
    have hlf : raw.toList = head ++ '\n' :: ([] ++ '\n' :: body) := by
      rw [heq]
      simp [lfLf]
    rcases blank_line_cases h List.not_mem_nil rfl hlf with
      ⟨hz, _, hbody, hlines⟩ | ⟨hlater, ms, hlines, hts⟩
    · exact Or.inl ⟨Or.inr ⟨by rw [h, hz]; rfl, hno⟩, by rw [headLinesOf, hlines], hbody⟩
    · refine Or.inr ⟨fun hfinds => ?_, ms, by rw [headLinesOf, hlines], Or.inr ⟨_, hts⟩⟩
      by_contra hne
      rcases hfinds.occurrence h hne with ⟨head', _, hraw⟩ | ⟨_, hraw⟩
      · exact hno ⟨head', _, hraw.symm⟩
      · have hle := hfirst _ _ hraw
        omega
  | whole hno hno' =>
    refine Or.inr ⟨fun hfinds => ?_, ts, ?_, Or.inl ⟨rfl, rfl⟩⟩
    · by_contra hne
      rcases hfinds.occurrence h hne with ⟨head', _, hraw⟩ | ⟨_, hraw⟩
      · exact hno ⟨head', _, hraw.symm⟩
      · exact hno' ⟨_, _, hraw.symm⟩
    · rw [← h, ← lines_eq]
      rfl

/-- Without a blank line no line between two LFs is blank. -/
theorem ne_of_afterHead_nil {raw : String} (h : afterHead raw = []) (xs z ys : List Char)
    (hlf : '\n' ∉ z) (hblank : isBlank z = true) :
    raw.toList ≠ xs ++ '\n' :: (z ++ '\n' :: ys) := by
  intro hraw
  have hlines : requestLine raw :: headLines raw =
      xs.splitOn '\n' ++ z :: ys.splitOn '\n' := by
    rw [← splitOn_append_line hlf, ← hraw, ← List.append_nil (headLines raw), ← h]
    exact (lines_eq raw).symm
  obtain ⟨l, ls, hxs⟩ := List.exists_cons_of_ne_nil (List.splitOn_ne_nil '\n' xs)
  rw [hxs, List.cons_append] at hlines
  have hmem : z ∈ headLines raw := by
    rw [(List.cons.inj hlines).2]
    simp
  rw [isBlank_headLines hmem] at hblank
  exact absurd hblank (by decide)

/-- Without a blank line the whole text is the head. -/
theorem cut_of_nil {raw : String} (h : afterHead raw = []) {head body : List Char}
    (hcut : Cut raw.toList head body) : head = raw.toList ∧ body = [] := by
  cases hcut with
  | crlf heq _ =>
    have hcr : raw.toList = (head ++ ['\r']) ++ '\n' :: (['\r'] ++ '\n' :: body) := by
      rw [heq]
      simp [crlfCrlf]
    exact absurd hcr (ne_of_afterHead_nil h _ _ _ (by decide) rfl)
  | lf _ heq _ =>
    have hlf : raw.toList = head ++ '\n' :: ([] ++ '\n' :: body) := by
      rw [heq]
      simp [lfLf]
    exact absurd hlf (ne_of_afterHead_nil h _ _ _ List.not_mem_nil rfl)
  | whole _ _ => exact ⟨rfl, rfl⟩

theorem parse_eq (raw : String) : parse raw =
    parseLines (headLinesOf (splitHead raw.toList).1) (splitHead raw.toList).2 := rfl

theorem lines_headText (raw : String) :
    lines (headText raw) = requestLine raw :: headLines raw := by
  rw [lines, toList_headText]
  refine List.splitOn_intercalate '\n' (fun l hl => ?_) (List.cons_ne_nil _ _)
  have hmem : l ∈ lines raw := by
    rw [lines_eq]
    exact List.mem_append_left _ hl
  exact not_mem_of_mem_splitOn hmem

/-- The head alone has no blank line, so it is parsed as it is. -/
theorem parse_headText (raw : String) :
    parse (headText raw) =
      parseLines ((requestLine raw :: headLines raw).map (trimEndMatches '\r')) [] := by
  have hlines := lines_headText raw
  have hnil : afterHead (headText raw) = [] := by
    rw [afterHead, hlines, List.tail_cons, List.dropWhile_eq_nil_iff]
    intro l hl
    simp [isBlank_headLines hl]
  obtain ⟨hhead, hbody⟩ := cut_of_nil hnil (cut_splitHead (headText raw).toList)
  have hmap : headLinesOf (headText raw).toList =
      (lines (headText raw)).map (trimEndMatches '\r') := rfl
  rw [parse_eq, hhead, hbody, hmap, hlines]

/-- The promise is kept if the lines before the blank line are parsed, and the text after
it is the body. -/
theorem headEnds_of_parse {raw : String} {body : List Char}
    (h : parse raw =
      parseLines ((requestLine raw :: headLines raw).map (trimEndMatches '\r')) body)
    (hbody : String.ofList body = bodyText raw) : HeadEnds raw := by
  rw [List.map_cons] at h
  refine ⟨fun req hreq => ?_, fun e he => ?_⟩
  · obtain ⟨hheaders, hbytes⟩ := parseLines_eq_ok (h.symm.trans hreq)
    refine ⟨fun header hmem => ?_, hbytes.trans (by rw [hbody])⟩
    obtain ⟨l, hl, heq⟩ := hheaders header hmem
    obtain ⟨m, hm, rfl⟩ := List.mem_map.mp hl
    exact ⟨m, hm, heq⟩
  · have hsame := parseLines_append_error (h.symm.trans he) [] []
    rw [List.append_nil] at hsame
    rw [parse_headText, List.map_cons]
    exact hsame

theorem malformedHead_iff (raw : String) :
    MalformedHead raw ↔ ∃ e, parse (headText raw) = .error e := by
  rw [parse_headText, List.map_cons, parseLines_eq_error_iff]
  rfl

theorem bodyText_eq {raw : String} {z : List Char} {ts : List (List Char)}
    (h : afterHead raw = z :: ts) : bodyText raw = String.ofList (textOf ts) := by
  rw [bodyText, h]
  rfl

theorem eq_nil_of_textOf {ls : List (List Char)} (h : textOf ls = []) : ∀ l ∈ ls, l = [] := by
  cases ls with
  | nil => simp
  | cons l ls =>
    cases ls with
    | nil => simpa [textOf] using h
    | cons m ms => simp [textOf] at h

theorem asBytes_eq_nil {s : String} (h : asBytes s = []) : s = "" := by
  by_contra hne
  have hlist : s.toList ≠ [] := fun he => hne (String.toList_eq_nil_iff.mp he)
  have hlt := length_asBytes_lt hlist []
  rw [List.append_nil, String.ofList_toList, h] at hlt
  exact Nat.not_lt_zero _ hlt

/-- What a cut after the first blank line takes from the body. -/
theorem bodyText_eq_append {raw : String} {z z' body : List Char} {ts ms : List (List Char)}
    (h : afterHead raw = z :: ts) (hts : ts = ms ++ z' :: body.splitOn '\n') :
    ∃ taken, taken ≠ [] ∧ bodyText raw = String.ofList (taken ++ body) := by
  obtain ⟨l, ls, hbody⟩ := List.exists_cons_of_ne_nil (List.splitOn_ne_nil '\n' body)
  refine ⟨textOf (ms ++ [z']) ++ ['\n'], by simp, ?_⟩
  have hcut := intercalate_append_cons (s := '\n') (List.concat_ne_nil z' ms) l ls
  rw [bodyText_eq h, hts, hbody, List.append_cons, textOf, hcut, ← hbody,
    List.intercalate_splitOn, textOf]
  simp

/-! ## A cut that misses the first blank line -/

/-- A malformed head fails to parse, whatever lines are parsed with it. -/
theorem MalformedHead.headEnds {raw : String} (hmal : MalformedHead raw)
    {ls : List (List Char)} {body : List Char}
    (hparse : parse raw =
      parseLines ((requestLine raw :: headLines raw ++ ls).map (trimEndMatches '\r')) body) :
    HeadEnds raw := by
  obtain ⟨e, he⟩ := (malformedHead_iff raw).mp hmal
  have herr : parse raw = .error e := by
    rw [parse_headText, List.map_cons] at he
    rw [hparse, List.map_append, List.map_cons]
    exact parseLines_append_error he _ _
  refine ⟨fun req hreq => absurd (hreq.symm.trans herr) (by simp), fun e' he' => ?_⟩
  rw [he, ← herr]
  exact he'

section Later

variable {raw : String} {z body : List Char} {ts ms : List (List Char)}

/-- Without a body, the lines that are parsed with the head are empty. -/
theorem headEnds_of_later (h : afterHead raw = z :: ts)
    (hparse : parse raw =
      parseLines ((requestLine raw :: headLines raw ++ z :: ms).map (trimEndMatches '\r')) body)
    (hlater : (body = [] ∧ ts = ms) ∨ ∃ z', ts = ms ++ z' :: body.splitOn '\n')
    (hnil : bodyText raw = "") : HeadEnds raw := by
  rcases hlater with ⟨rfl, rfl⟩ | ⟨z', hts⟩
  · have htext : textOf ts = [] := by
      rw [bodyText_eq h] at hnil
      simpa using congrArg String.toList hnil
    have hempty : ∀ l ∈ (z :: ts).map (trimEndMatches '\r'), l = [] := by
      intro l hl
      obtain ⟨m, hm, rfl⟩ := List.mem_map.mp hl
      rcases List.mem_cons.mp hm with rfl | hm
      · exact trimEndMatches_of_isBlank (isBlank_of_afterHead h)
      · rw [eq_nil_of_textOf htext m hm]
        rfl
    rw [List.map_append, List.map_cons, parseLines_append_nil hempty] at hparse
    exact headEnds_of_parse (by rw [List.map_cons]; exact hparse) hnil.symm
  · obtain ⟨taken, hne, htext⟩ := bodyText_eq_append h hts
    rw [htext] at hnil
    have hlist : taken ++ body = [] := by simpa using congrArg String.toList hnil
    exact absurd (List.append_eq_nil_iff.mp hlist).1 hne

/-- With a body, either a line of it makes the parse fail, or some of it is lost. -/
theorem HeadEnds.of_later (hends : HeadEnds raw) (h : afterHead raw = z :: ts)
    (hparse : parse raw =
      parseLines ((requestLine raw :: headLines raw ++ z :: ms).map (trimEndMatches '\r')) body)
    (hlater : (body = [] ∧ ts = ms) ∨ ∃ z', ts = ms ++ z' :: body.splitOn '\n') :
    MalformedHead raw ∨ bodyText raw = "" := by
  by_cases hmal : MalformedHead raw
  · exact Or.inl hmal
  cases hraw : parse raw with
  | error e => exact absurd ((malformedHead_iff raw).mpr ⟨e, hends.2 e hraw⟩) hmal
  | ok req =>
    have hbytes := (parseLines_eq_ok (hparse.symm.trans hraw)).2
    have hsame : asBytes (bodyText raw) = asBytes (String.ofList body) :=
      (hends.1 req hraw).2.symm.trans hbytes
    rcases hlater with ⟨rfl, _⟩ | ⟨z', hts⟩
    · exact Or.inr (asBytes_eq_nil hsame)
    · obtain ⟨taken, hne, htext⟩ := bodyText_eq_append h hts
      have hlt := length_asBytes_lt hne body
      rw [← htext, hsame] at hlt
      exact absurd hlt (Nat.lt_irrefl _)

end Later

/-- The condition under which the head ends at the first blank line. -/
theorem headEnds_iff (raw : String) :
    HeadEnds raw ↔ MalformedHead raw ∨ bodyText raw = "" ∨ FindsBlank raw := by
  have hcut := cut_splitHead raw.toList
  have hparse := parse_eq raw
  cases hafter : afterHead raw with
  | nil =>
    obtain ⟨hhead, hbody⟩ := cut_of_nil hafter hcut
    have hlines := lines_eq raw
    rw [hafter, List.append_nil] at hlines
    have hnil : bodyText raw = "" := by
      rw [bodyText, hafter]
      rfl
    have hmap : headLinesOf raw.toList = (lines raw).map (trimEndMatches '\r') := rfl
    rw [hhead, hbody, hmap, hlines] at hparse
    exact ⟨fun _ => Or.inr (Or.inl hnil), fun _ => headEnds_of_parse hparse hnil.symm⟩
  | cons z ts =>
    rcases cut_cases hafter hcut with ⟨hfinds, hhead, hbody⟩ | ⟨hfinds, ms, hhead, hlater⟩
    · rw [hhead, hbody] at hparse
      exact ⟨fun _ => Or.inr (Or.inr hfinds),
        fun _ => headEnds_of_parse hparse (bodyText_eq hafter).symm⟩
    · have hnil : FindsBlank raw → bodyText raw = "" := by
        intro hf
        rw [bodyText_eq hafter, hfinds hf]
        rfl
      rw [hhead] at hparse
      rw [or_iff_left_of_imp hnil]
      refine ⟨fun hends => hends.of_later hafter hparse hlater, fun hcond => ?_⟩
      rcases hcond with hmal | hnobody
      · exact hmal.headEnds hparse
      · exact headEnds_of_later hafter hparse hlater hnobody

/-- A request with bare LF lines and CRLF CRLF in its body. -/
def smuggled : String := "GET / HTTP/1.1\nHost: h\n\nX-Session-Id: evil\r\n\r\n"

/-- The first line of the body becomes a header, and the body is lost. -/
theorem headEnds_fails :
    (∃ req, parse smuggled = .ok req ∧ req.header "X-Session-Id" = some "evil" ∧
      req.body = []) ∧
      headLines smuggled = ["Host: h".toList] ∧
      bodyText smuggled = "X-Session-Id: evil\r\n\r\n" ∧ ¬ HeadEnds smuggled := by
  have hparse : parse smuggled = .ok
      { method := .get
        path := "/"
        version := "HTTP/1.1"
        headers := [("Host", "h"), ("X-Session-Id", "evil")]
        body := [] } := by decide
  refine ⟨⟨_, hparse, by decide, rfl⟩, by decide, by decide, fun h => ?_⟩
  have hbody := (h.1 _ hparse).2
  exact absurd hbody (by decide)

end Request

end Echofront
