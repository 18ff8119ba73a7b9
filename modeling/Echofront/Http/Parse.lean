import Echofront.Http
import Echofront.Lib.Split
import Echofront.Text

/-!
# The request parser

`Request::parse` of `src/http.rs`.  It cuts the raw text into a head and a body
(`splitHead`), the head into lines, and the lines into a request line and headers
(`parseLines`).

* `Cut` is all that `splitHead` can do.
* `parseHeaders_append` and the lemmas after it say how `parseLines` depends on the
  later lines and on the body: an error of the first lines stays, blank lines do not
  count, and the body is only passed on.
* `parseLines_eq_error_iff` says which lines are malformed.
-/

namespace Echofront

open Lib

/-- `Method::parse`. -/
def Method.parse (s : String) : Method :=
  match s with
  | "GET" => .get
  | "POST" => .post
  | "PUT" => .put
  | "DELETE" => .delete
  | "PATCH" => .patch
  | "HEAD" => .head
  | "OPTIONS" => .options
  | s => .other s

/-- `Method::as_str`. -/
def Method.asStr : Method → String
  | .get => "GET"
  | .post => "POST"
  | .put => "PUT"
  | .delete => "DELETE"
  | .patch => "PATCH"
  | .head => "HEAD"
  | .options => "OPTIONS"
  | .other s => s

/-- A parsed method is written as it was read. -/
theorem Method.asStr_parse (s : String) : (Method.parse s).asStr = s := by
  unfold Method.parse
  split <;> rfl

/-- `ParseError`. -/
inductive ParseError where
  | empty
  | malformedRequestLine
  | malformedHeader (line : String)
deriving DecidableEq, Repr

namespace Request

def crlfCrlf : List Char := ['\r', '\n', '\r', '\n']

def lfLf : List Char := ['\n', '\n']

/-- The head and the body of a raw request. -/
def splitHead (raw : List Char) : List Char × List Char :=
  match splitOnce crlfCrlf raw with
  | some (head, body) => (head, body)
  | none =>
    match splitOnce lfLf raw with
    | some (head, body) => (head, body)
    | none => (raw, [])

/-- The header of a line. -/
def headerOf (line : List Char) : Except ParseError (String × String) :=
  match splitOnce [':'] line with
  | none => .error (.malformedHeader (String.ofList line))
  | some (name, value) => .ok (String.ofList (trim name), String.ofList (trim value))

/-- The loop over the lines after the request line. -/
def parseHeaders : List (List Char) → Except ParseError (List (String × String))
  | [] => .ok []
  | line :: lines =>
    if line.isEmpty then parseHeaders lines
    else do
      let header ← headerOf line
      let headers ← parseHeaders lines
      pure (header :: headers)

/-- `Request::parse` after the lines of the head have been trimmed. -/
def parseLines (lines : List (List Char)) (body : List Char) : Except ParseError Request :=
  match lines with
  | [] => .error .empty
  | requestLine :: lines =>
    if (trim requestLine).isEmpty then .error .empty
    else
      match splitWhitespace requestLine with
      | method :: path :: rest => do
        let headers ← parseHeaders lines
        pure
          { method := .parse (String.ofList method)
            path := String.ofList path
            version := (rest.head?.map String.ofList).getD "HTTP/1.1"
            headers := headers
            body := asBytes (String.ofList body) }
      | _ => .error .malformedRequestLine

/-- The lines of a head, without their carriage returns. -/
def headLinesOf (head : List Char) : List (List Char) :=
  (head.splitOn '\n').map (trimEndMatches '\r')

/-- `Request::parse`. -/
def parse (raw : String) : Except ParseError Request :=
  let (head, body) := splitHead raw.toList
  parseLines (headLinesOf head) body

/-! ## The cut -/

/-- What `splitHead` can do.

* It cuts at the first CRLF CRLF.
* There is none, and it cuts at the first LF LF.
* There is neither, and the whole text is the head. -/
inductive Cut (raw : List Char) : List Char → List Char → Prop
  | crlf {head body : List Char} (heq : raw = head ++ crlfCrlf ++ body)
      (hfirst : ∀ h b, raw = h ++ crlfCrlf ++ b → head.length ≤ h.length) : Cut raw head body
  | lf {head body : List Char} (hno : ¬ crlfCrlf <:+: raw) (heq : raw = head ++ lfLf ++ body)
      (hfirst : ∀ h b, raw = h ++ lfLf ++ b → head.length ≤ h.length) : Cut raw head body
  | whole (hno : ¬ crlfCrlf <:+: raw) (hno' : ¬ lfLf <:+: raw) : Cut raw raw []

theorem cut_splitHead (raw : List Char) : Cut raw (splitHead raw).1 (splitHead raw).2 := by
  unfold splitHead
  cases hcrlf : splitOnce crlfCrlf raw with
  | some cut =>
    obtain ⟨heq, hfirst⟩ := splitOnce_eq_some hcrlf
    exact .crlf heq hfirst
  | none =>
    have hno := splitOnce_eq_none_iff.mp hcrlf
    cases hlf : splitOnce lfLf raw with
    | some cut =>
      obtain ⟨heq, hfirst⟩ := splitOnce_eq_some hlf
      exact .lf hno heq hfirst
    | none => exact .whole hno (splitOnce_eq_none_iff.mp hlf)

/-! ## The lines -/

theorem headerOf_eq_error_iff {line : List Char} :
    (∃ e, headerOf line = .error e) ↔ ':' ∉ line := by
  rw [← splitOnce_singleton_eq_none_iff, headerOf]
  cases splitOnce [':'] line <;> simp

@[simp] theorem parseHeaders_nil : parseHeaders [] = .ok [] := rfl

/-- An empty line is skipped. -/
@[simp] theorem parseHeaders_cons_nil (ls : List (List Char)) :
    parseHeaders ([] :: ls) = parseHeaders ls := rfl

theorem parseHeaders_cons {l : List Char} (hl : l ≠ []) (ls : List (List Char)) :
    parseHeaders (l :: ls) =
      (headerOf l).bind (fun h => (parseHeaders ls).map (h :: ·)) := by
  rw [parseHeaders, if_neg (by simpa using hl)]
  cases headerOf l with
  | error e => rfl
  | ok h => cases parseHeaders ls <;> rfl

/-- The headers of the first lines come first, and so does their error. -/
theorem parseHeaders_append (ls ms : List (List Char)) :
    parseHeaders (ls ++ ms) =
      (parseHeaders ls).bind (fun hs => (parseHeaders ms).map (hs ++ ·)) := by
  induction ls with
  | nil => cases hms : parseHeaders ms <;> simp [hms, Except.bind, Except.map]
  | cons l ls ih =>
    by_cases hl : l = []
    · rw [hl]
      exact ih
    · rw [List.cons_append, parseHeaders_cons hl, parseHeaders_cons hl, ih]
      cases headerOf l with
      | error e => rfl
      | ok h => cases parseHeaders ls <;> cases parseHeaders ms <;> rfl

/-- Empty lines do not count. -/
theorem parseHeaders_of_nil {ls : List (List Char)} (h : ∀ l ∈ ls, l = []) :
    parseHeaders ls = .ok [] := by
  induction ls with
  | nil => rfl
  | cons l ls ih =>
    rw [h l List.mem_cons_self]
    exact ih (fun m hm => h m (List.mem_cons_of_mem _ hm))

theorem parseHeaders_eq_error_iff {ls : List (List Char)} :
    (∃ e, parseHeaders ls = .error e) ↔ ∃ l ∈ ls, l ≠ [] ∧ ':' ∉ l := by
  induction ls with
  | nil => simp
  | cons l ls ih =>
    rw [List.exists_mem_cons_iff, ← ih, ← headerOf_eq_error_iff]
    by_cases hl : l = []
    · simp [hl]
    · rw [parseHeaders_cons hl]
      cases headerOf l <;> cases parseHeaders ls <;> simp [hl, Except.bind, Except.map]

/-- Every header is the header of a line. -/
theorem mem_parseHeaders {ls : List (List Char)} {hs : List (String × String)}
    (h : parseHeaders ls = .ok hs) {header : String × String} (hmem : header ∈ hs) :
    ∃ l ∈ ls, headerOf l = .ok header := by
  induction ls generalizing hs with
  | nil =>
    obtain rfl : [] = hs := Except.ok.inj h
    simp at hmem
  | cons l ls ih =>
    by_cases hl : l = []
    · rw [hl, parseHeaders_cons_nil] at h
      obtain ⟨m, hm, heq⟩ := ih h hmem
      exact ⟨m, List.mem_cons_of_mem _ hm, heq⟩
    · rw [parseHeaders_cons hl] at h
      cases hh : headerOf l with
      | error e => simp [hh, Except.bind] at h
      | ok first =>
        cases hls : parseHeaders ls with
        | error e => simp [hh, hls, Except.bind, Except.map] at h
        | ok rest =>
          obtain rfl : first :: rest = hs := by
            simpa [hh, hls, Except.bind, Except.map] using h
          rcases List.mem_cons.mp hmem with rfl | hmem
          · exact ⟨l, List.mem_cons_self, hh⟩
          · obtain ⟨m, hm, heq⟩ := ih hls hmem
            exact ⟨m, List.mem_cons_of_mem _ hm, heq⟩

/-! ## The head -/

/-- A request line with a method and a path is completed by the headers and the body. -/
theorem parseLines_of_words {x method path : List Char} {rest : List (List Char)}
    (h : splitWhitespace x = method :: path :: rest) (ls : List (List Char))
    (body : List Char) :
    parseLines (x :: ls) body = (parseHeaders ls).map (fun hs =>
      { method := .parse (String.ofList method)
        path := String.ofList path
        version := (rest.head?.map String.ofList).getD "HTTP/1.1"
        headers := hs
        body := asBytes (String.ofList body) }) := by
  have htrim : trim x ≠ [] := by
    intro he
    rw [splitWhitespace_of_trim he] at h
    simp at h
  simp only [parseLines, List.isEmpty_iff, htrim, h, if_false]
  cases parseHeaders ls <;> rfl

/-- What a request line does.  It is malformed, whatever follows, or the headers and the
body complete the request. -/
theorem parseLines_cases (x : List Char) :
    ((splitWhitespace x).length < 2 ∧ ∃ e, ∀ ls body, parseLines (x :: ls) body = .error e) ∨
    (2 ≤ (splitWhitespace x).length ∧ ∃ method path version, ∀ ls body,
      parseLines (x :: ls) body = (parseHeaders ls).map (fun hs =>
        { method := method
          path := path
          version := version
          headers := hs
          body := asBytes (String.ofList body) })) := by
  by_cases htrim : trim x = []
  · have hwords := splitWhitespace_of_trim htrim
    exact Or.inl ⟨by simp [hwords], .empty, fun ls body => by simp [parseLines, htrim]⟩
  · cases hwords : splitWhitespace x with
    | nil => exact Or.inl ⟨Nat.zero_lt_two, .malformedRequestLine,
        fun ls body => by simp [parseLines, htrim, hwords]⟩
    | cons method words =>
      cases words with
      | nil => exact Or.inl ⟨Nat.one_lt_two, .malformedRequestLine,
          fun ls body => by simp [parseLines, htrim, hwords]⟩
      | cons path rest =>
        refine Or.inr ⟨by simp, ?_⟩
        exact ⟨_, _, _, parseLines_of_words hwords⟩

variable {x : List Char} {ls ms : List (List Char)} {body : List Char}

/-- An error of the first lines stays, whatever the later lines and the body are. -/
theorem parseLines_append_error {e : ParseError} (h : parseLines (x :: ls) body = .error e)
    (ms : List (List Char)) (body' : List Char) :
    parseLines (x :: ls ++ ms) body' = .error e := by
  rw [List.cons_append]
  rcases parseLines_cases x with ⟨_, e', hall⟩ | ⟨_, method, path, version, hall⟩
  · rw [hall] at h ⊢
    exact h
  · rw [hall] at h ⊢
    rw [parseHeaders_append]
    cases hls : parseHeaders ls with
    | error e' =>
      rw [hls] at h
      exact h
    | ok hs => simp [hls, Except.map] at h

/-- Empty lines at the end do not count. -/
theorem parseLines_append_nil (h : ∀ l ∈ ms, l = []) :
    parseLines (x :: ls ++ ms) body = parseLines (x :: ls) body := by
  have hheaders : parseHeaders (ls ++ ms) = parseHeaders ls := by
    rw [parseHeaders_append, parseHeaders_of_nil h]
    cases parseHeaders ls <;> simp [Except.bind, Except.map]
  rw [List.cons_append]
  rcases parseLines_cases x with ⟨_, e, hall⟩ | ⟨_, method, path, version, hall⟩
  · rw [hall, hall]
  · rw [hall, hall, hheaders]

/-- A request has the headers of the lines, and the body. -/
theorem parseLines_eq_ok {r : Request} (h : parseLines (x :: ls) body = .ok r) :
    (∀ header ∈ r.headers, ∃ l ∈ ls, headerOf l = .ok header) ∧
      r.body = asBytes (String.ofList body) := by
  rcases parseLines_cases x with ⟨_, e, hall⟩ | ⟨_, method, path, version, hall⟩
  · rw [hall] at h
    simp at h
  · rw [hall] at h
    cases hls : parseHeaders ls with
    | error e => simp [hls, Except.map] at h
    | ok hs =>
      rw [hls] at h
      obtain rfl := Except.ok.inj h
      exact ⟨fun header hmem => mem_parseHeaders hls hmem, rfl⟩

/-- The malformed heads: the request line has fewer than two words, or a line has no
colon. -/
theorem parseLines_eq_error_iff :
    (∃ e, parseLines (x :: ls) body = .error e) ↔
      (splitWhitespace x).length < 2 ∨ ∃ l ∈ ls, l ≠ [] ∧ ':' ∉ l := by
  rw [← parseHeaders_eq_error_iff]
  rcases parseLines_cases x with ⟨hlt, e, hall⟩ | ⟨hge, method, path, version, hall⟩
  · exact ⟨fun _ => Or.inl hlt, fun _ => ⟨e, hall ls body⟩⟩
  · rw [hall]
    cases parseHeaders ls <;> simp [Except.map, Nat.not_lt.mpr hge]

end Request

end Echofront
