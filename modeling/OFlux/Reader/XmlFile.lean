import Mathlib.Data.List.TakeWhile
import OFlux.Library.Loop
import OFlux.Reader.Reading

/-!
# Reading a file

{lit}`readxmlfile` hands a file to the parser line by line.  The line breaks are not part of what it
hands on, and neither is what follows a null byte in a line; a line that does not fit into the
buffer ends the loop, as the end of the file does.  The parser hears that the document is complete
only with a last line that has no line break.

Main results:

- Theorem {lit}`runs_linesFrom`: the loop hands the lines of the file to the parser.
- Theorem {lit}`readsWhole_iff`: when all of the file reaches the parser.
-/

namespace OFlux
namespace Reader

open Library

/-- A byte of a file. -/
abbrev Byte := UInt8

/-- The byte that ends a line. -/
def newline : Byte := 10

/-- {lit}`XML_READER_MAX_LINE` -/
def maxLine : Nat := 2048

/-! ## Streams -/

/-- An input stream: what is left of the file, and its flags. -/
structure InputStream where
  rest : List Byte
  eof : Bool := false
  fail : Bool := false

/-- What {lit}`getline` can store of the next line. -/
def nextLine (content : List Byte) : List Byte :=
  (content.take (maxLine - 1)).takeWhile (· ≠ newline)

/-- {lit}`getline` into the buffer.  It stops at the end of the file, at a line break, which it
takes but does not store, or when the buffer is full, in this order. -/
def getline (s : InputStream) : List Byte × InputStream :=
  if s.eof || s.fail then ([], { s with fail := true })
  else
    let line := nextLine s.rest
    match s.rest.drop line.length with
    | [] => (line, { rest := [], eof := true, fail := line.isEmpty })
    | c :: rest =>
        if c = newline then (line, { s with rest := rest })
        else (line, { s with rest := c :: rest, fail := true })

/-- The part of the buffer that {lit}`strlen` measures. -/
def cString (buff : List Byte) : List Byte :=
  buff.takeWhile (· ≠ 0)

/-! ## The parser -/

/-- What {lit}`XML_Parse` comes to; the handlers that it calls may throw. -/
inductive ParseResult (σ : Type) where
  | parsed (p : σ)
  | statusError
  | thrown (exmsg : String)

/-- The parser; creating it may fail.  Each call gets some bytes, and whether they are the last. -/
structure XmlParser (σ : Type) where
  create : Option σ
  parse : σ → List Byte → Bool → ParseResult σ

/-- The calls that the parser gets, with what each is told. -/
abbrev ParserCalls := List (List Byte × Bool)

/-- The state of the loop; the calls that the parser has had are a history variable. -/
structure Reading (σ : Type) where
  stream : InputStream
  parser : σ
  calls : ParserCalls

variable {σ : Type}

/-- One turn of the loop of {lit}`readxmlfile`. -/
def readTurn (parser : XmlParser σ) (s : Reading σ) : Turn ReaderException (Reading σ) Unit :=
  let (buff, stream) := getline s.stream
  if stream.fail then .done { s with stream := stream } ()
  else
    match parser.parse s.parser (cString buff) stream.eof with
    | .parsed p =>
        .again { stream := stream, parser := p, calls := s.calls ++ [(cString buff, stream.eof)] }
    | .statusError => .fail "Error in parsing XML file"
    | .thrown exmsg => .fail exmsg

/-- {lit}`readxmlfile` on a file with a content, unless it cannot be opened: it returns, after these
calls of the parser, or throws. -/
def Readxmlfile (parser : XmlParser σ) (filename : String) (file : Option (List Byte))
    (result : Except ReaderException ParserCalls) : Prop :=
  match file with
  | none => result = .error ("Cannot open XML config file: " ++ filename)
  | some content =>
      match parser.create with
      | none => result = .error "Cannot create the XML parser!"
      | some p =>
          ∃ r, Returns (readTurn parser) ⟨⟨content, false, false⟩, p, []⟩ r ∧
            result = r.map fun s => s.1.calls

/-- The bytes of the calls are those of the file, and the last one is told that it is the last. -/
def PassesWhole (content : List Byte) (calls : ParserCalls) : Prop :=
  (calls.map Prod.fst).flatten = content ∧ (calls.getLast?).map Prod.snd = some true

/-- {lit}`readxmlfile` throws, or has passed all of the file. -/
def ReadsWhole (parser : XmlParser σ) (filename : String) (file : Option (List Byte)) : Prop :=
  ∃ result, Readxmlfile parser filename file result ∧
    ∀ calls, result = .ok calls → ∃ content, file = some content ∧ PassesWhole content calls

/-! ## The lines of a file -/

/-- The calls for the lines of a file, of which there are no more than bytes. -/
def linesFrom : Nat → List Byte → ParserCalls
  | 0, _ => []
  | n + 1, content =>
      let line := nextLine content
      match content.drop line.length with
      | [] => if line.isEmpty then [] else [(cString line, true)]
      | c :: rest => if c = newline then (cString line, false) :: linesFrom n rest else []

/-- What the parser is given for a file of this content. -/
def lines (content : List Byte) : ParserCalls :=
  linesFrom (content.length + 1) content

/-- The calls one after the other, until one fails. -/
def parseAll (parser : XmlParser σ) : σ → ParserCalls → Except ReaderException σ
  | p, [] => .ok p
  | p, (bytes, isFinal) :: calls =>
      match parser.parse p bytes isFinal with
      | .parsed p => parseAll parser p calls
      | .statusError => .error "Error in parsing XML file"
      | .thrown exmsg => .error exmsg

/-- What {lit}`readxmlfile` comes to, without its loop. -/
def readResult (parser : XmlParser σ) (filename : String) (file : Option (List Byte)) :
    Except ReaderException ParserCalls :=
  match file with
  | none => .error ("Cannot open XML config file: " ++ filename)
  | some content =>
      match parser.create with
      | none => .error "Cannot create the XML parser!"
      | some p => (parseAll parser p (lines content)).map fun _ => lines content

variable {parser : XmlParser σ} {content : List Byte} {p : σ} {calls : ParserCalls}

/-- The parser reports an error for one of some calls, or a handler throws. -/
def Rejects (parser : XmlParser σ) (p : σ) (calls : ParserCalls) : Prop :=
  ∃ exmsg, parseAll parser p calls = .error exmsg

/-- Behind a byte there is less left. -/
theorem length_drop_lt {c : Byte} {rest : List Byte} {n : Nat}
    (h : content.drop n = c :: rest) : rest.length < content.length := by
  have hlen := congrArg List.length h
  rw [List.length_drop, List.length_cons] at hlen
  omega

/-- Once the end of the file has been seen, the loop ends. -/
theorem readTurn_of_eof (parser : XmlParser σ) {s : Reading σ} (h : s.stream.eof = true) :
    ∃ t, readTurn parser s = .done t () ∧ t.calls = s.calls := by
  refine ⟨{ s with stream := { s.stream with fail := true } }, ?_, rfl⟩
  simp [readTurn, getline, h]

/-- A turn whose read fails ends the loop. -/
theorem readTurn_of_fail {s : Reading σ} (h : (getline s.stream).2.fail = true) :
    readTurn parser s = .done { s with stream := (getline s.stream).2 } () := by
  simp [readTurn, h]

/-- A turn that hands a line to the parser. -/
theorem readTurn_of_line (parser : XmlParser σ) {s : Reading σ}
    (h : (getline s.stream).2.fail = false) :
    readTurn parser s =
      match parser.parse s.parser (cString (getline s.stream).1) (getline s.stream).2.eof with
      | .parsed p => .again ⟨(getline s.stream).2, p,
          s.calls ++ [(cString (getline s.stream).1, (getline s.stream).2.eof)]⟩
      | .statusError => .fail "Error in parsing XML file"
      | .thrown exmsg => .fail exmsg := by
  simp [readTurn, h]

/-- From here on the loop makes the calls of a list, unless one of them fails. -/
def Runs (parser : XmlParser σ) (s : Reading σ) (calls : ParserCalls) : Prop :=
  ∃ r, Returns (readTurn parser) s r ∧
    r.map (fun t => t.1.calls) = (parseAll parser s.parser calls).map fun _ => s.calls ++ calls

/-- A loop that is done makes no further call. -/
theorem Runs.of_done {s t : Reading σ} (h : readTurn parser s = .done t ())
    (hcalls : t.calls = s.calls) : Runs parser s [] := by
  refine ⟨_, Returns.done h, ?_⟩
  simp [parseAll, Except.map, hcalls]

/-- A line is one call, and then the loop goes on. -/
theorem Runs.of_line {s : Reading σ} {bytes : List Byte} {stream : InputStream}
    (hline : getline s.stream = (bytes, stream)) (hfail : stream.fail = false)
    (hrest : ∀ p', Runs parser ⟨stream, p', s.calls ++ [(cString bytes, stream.eof)]⟩ calls) :
    Runs parser s ((cString bytes, stream.eof) :: calls) := by
  have hturn := readTurn_of_line parser (by rw [hline]; exact hfail)
  rw [hline] at hturn
  dsimp only at hturn
  cases hparse : parser.parse s.parser (cString bytes) stream.eof with
  | parsed p' =>
      rw [hparse] at hturn
      obtain ⟨r, hreturns, hr⟩ := hrest p'
      refine ⟨r, Returns.again hturn hreturns, ?_⟩
      rw [hr, parseAll, hparse]
      simp only [List.append_assoc, List.singleton_append]
  | statusError =>
      rw [hparse] at hturn
      refine ⟨_, Returns.fail hturn, ?_⟩
      rw [parseAll, hparse]
      rfl
  | thrown exmsg =>
      rw [hparse] at hturn
      refine ⟨_, Returns.fail hturn, ?_⟩
      rw [parseAll, hparse]
      rfl

/-- From a place in the file on, the loop hands the lines to the parser. -/
theorem runs_linesFrom (parser : XmlParser σ) (n : Nat) (hn : content.length < n) (p : σ)
    (calls : ParserCalls) :
    Runs parser ⟨⟨content, false, false⟩, p, calls⟩ (linesFrom n content) := by
  induction n generalizing content p calls with
  | zero => exact absurd hn (Nat.not_lt_zero _)
  | succ n ih =>
      rw [linesFrom]
      cases hdrop : content.drop (nextLine content).length with
      | nil =>
          have hline : getline ⟨content, false, false⟩ =
              (nextLine content, ⟨[], true, (nextLine content).isEmpty⟩) := by
            simp [getline, hdrop]
          by_cases hempty : (nextLine content).isEmpty = true
          · rw [if_pos hempty]
            refine Runs.of_done (readTurn_of_fail ?_) rfl
            rw [hline]
            exact hempty
          · rw [if_neg hempty]
            refine Runs.of_line (s := ⟨⟨content, false, false⟩, p, calls⟩) hline
              (Bool.eq_false_iff.mpr hempty) fun p' => ?_
            have hend := readTurn_of_eof parser (s := ⟨⟨[], true,
              (nextLine content).isEmpty⟩, p', calls ++ [(cString (nextLine content), true)]⟩) rfl
            obtain ⟨t, hdone, ht⟩ := hend
            exact Runs.of_done hdone ht
      | cons c rest =>
          have hrest : rest.length < n :=
            Nat.lt_of_lt_of_le (length_drop_lt hdrop) (Nat.le_of_lt_succ hn)
          by_cases hc : c = newline
          · have hline : getline ⟨content, false, false⟩ =
                (nextLine content, ⟨rest, false, false⟩) := by
              simp [getline, hdrop, hc]
            simp only [if_pos hc]
            exact Runs.of_line (s := ⟨⟨content, false, false⟩, p, calls⟩) hline rfl
              fun p' => ih hrest p' _
          · simp only [if_neg hc]
            refine Runs.of_done (readTurn_of_fail ?_) rfl
            simp [getline, hdrop, hc]

/-- The loop comes to what the calls for the lines come to. -/
theorem readxmlfile_iff {filename : String} {file : Option (List Byte)}
    {result : Except ReaderException ParserCalls} :
    Readxmlfile parser filename file result ↔ result = readResult parser filename file := by
  cases file with
  | none => exact Iff.rfl
  | some content =>
      simp only [Readxmlfile, readResult]
      cases parser.create with
      | none => exact Iff.rfl
      | some p =>
          obtain ⟨r, hreturns, hr⟩ := runs_linesFrom parser (content.length + 1)
            (Nat.lt_succ_self content.length) p []
          dsimp only
          rw [List.nil_append] at hr
          constructor
          · rintro ⟨r', hreturns', rfl⟩
            rw [Returns.unique hreturns' hreturns]
            exact hr
          · rintro rfl
            exact ⟨r, hreturns, hr.symm⟩

/-! ## What reaches the parser -/

/-- Neither line breaks nor null bytes are handed on. -/
theorem mem_cString_nextLine {b : Byte} (hb : b ∈ cString (nextLine content)) :
    b ≠ newline ∧ b ≠ 0 := by
  have hnull := List.mem_takeWhile_imp hb
  have hbreak := List.mem_takeWhile_imp (List.takeWhile_subset _ hb)
  exact ⟨by simpa using hbreak, by simpa using hnull⟩

/-- A line passed on has no newline and no null byte. -/
theorem mem_linesFrom {n : Nat} {call : List Byte × Bool} (h : call ∈ linesFrom n content) :
    ∀ b ∈ call.1, b ≠ newline ∧ b ≠ 0 := by
  induction n generalizing content with
  | zero => cases h
  | succ n ih =>
      rw [linesFrom] at h
      cases hdrop : content.drop (nextLine content).length with
      | nil =>
          rw [hdrop] at h
          dsimp only at h
          split at h
          · cases h
          · rw [List.mem_singleton.mp h]
            exact fun b hb => mem_cString_nextLine hb
      | cons c rest =>
          rw [hdrop] at h
          dsimp only at h
          split at h
          · rcases List.mem_cons.mp h with rfl | h
            · exact fun b hb => mem_cString_nextLine hb
            · exact ih h
          · cases h

/-- The file is one line without a line break, which fits into the buffer. -/
structure SingleLine (content : List Byte) : Prop where
  nonempty : content ≠ []
  noBreak : newline ∉ content
  noNull : 0 ∉ content
  fits : content.length < maxLine

/-- Without a newline the line is all that fits. -/
theorem nextLine_of_noBreak (h : newline ∉ content) :
    nextLine content = content.take (maxLine - 1) := by
  rw [nextLine, List.takeWhile_eq_self_iff]
  intro b hb
  have hne : b ≠ newline := fun heq => h (heq ▸ List.mem_of_mem_take hb)
  simpa using hne

/-- Without a null byte the C string is everything. -/
theorem cString_of_noNull (h : 0 ∉ content) : cString content = content := by
  rw [cString, List.takeWhile_eq_self_iff]
  intro b hb
  have hne : b ≠ 0 := fun heq => h (heq ▸ hb)
  simpa using hne

theorem SingleLine.lines_eq (h : SingleLine content) : lines content = [(content, true)] := by
  have hline : nextLine content = content := by
    rw [nextLine_of_noBreak h.noBreak, List.take_of_length_le (Nat.le_sub_one_of_lt h.fits)]
  have hne : ¬ content.isEmpty = true := by simpa using h.nonempty
  simp only [lines, linesFrom, hline, List.drop_length, if_neg hne, cString_of_noNull h.noNull]

/-- A first line that does not fit ends the loop before the parser has got anything. -/
theorem lines_of_long (hbreak : newline ∉ content) (hlong : maxLine ≤ content.length) :
    lines content = [] := by
  have hlen : (nextLine content).length = maxLine - 1 := by
    rw [nextLine_of_noBreak hbreak, List.length_take]
    omega
  cases hdrop : content.drop (nextLine content).length with
  | nil =>
      rw [hlen, List.drop_eq_nil_iff] at hdrop
      simp only [maxLine] at hdrop hlong
      omega
  | cons c rest =>
      have hc : c ≠ newline := by
        rintro rfl
        exact hbreak (List.mem_of_mem_drop (hdrop ▸ List.mem_cons_self))
      simp only [lines, linesFrom, hdrop, if_neg hc]

/-- The calls for the lines pass the whole file only if there is just one line. -/
theorem passesWhole_lines_iff : PassesWhole content (lines content) ↔ SingleLine content := by
  constructor
  · rintro ⟨hbytes, hlast⟩
    have hmem : ∀ b ∈ content, b ≠ newline ∧ b ≠ 0 := by
      intro b hb
      rw [← hbytes] at hb
      obtain ⟨bytes, hmem, hb⟩ := List.mem_flatten.mp hb
      obtain ⟨call, hcall, rfl⟩ := List.mem_map.mp hmem
      exact mem_linesFrom hcall b hb
    have hbreak : newline ∉ content := fun h => (hmem _ h).1 rfl
    refine ⟨?_, hbreak, fun h => (hmem _ h).2 rfl, ?_⟩
    · rintro rfl
      cases hlast
    · by_contra hlong
      rw [lines_of_long hbreak (Nat.le_of_not_lt hlong)] at hlast
      cases hlast
  · intro h
    rw [h.lines_eq]
    exact ⟨by simp, rfl⟩

/-- For a file that can be opened and a parser that can be created: the parser reports an error for
one of the lines, or all of the file is one line. -/
def FailsOrSingle (parser : XmlParser σ) (file : Option (List Byte)) : Prop :=
  ∀ content ∈ file, ∀ p ∈ parser.create, Rejects parser p (lines content) ∨ SingleLine content

/-- {lit}`readxmlfile` throws or passes the whole file to the parser exactly if the file cannot be
read at all, the parser rejects one of its lines, or it consists of one line without a line break.
-/
theorem readsWhole_iff (parser : XmlParser σ) (filename : String) (file : Option (List Byte)) :
    ReadsWhole parser filename file ↔ FailsOrSingle parser file := by
  simp only [ReadsWhole, readxmlfile_iff, exists_eq_left]
  cases file with
  | none => simp [readResult, FailsOrSingle]
  | some content =>
      cases hcreate : parser.create with
      | none => simp [readResult, FailsOrSingle, hcreate]
      | some p =>
          have hresult : readResult parser filename (some content) =
              (parseAll parser p (lines content)).map fun _ => lines content := by
            simp only [readResult, hcreate]
          have hfails : FailsOrSingle parser (some content) ↔
              Rejects parser p (lines content) ∨ SingleLine content := by
            simp [FailsOrSingle, hcreate]
          rw [hresult, hfails]
          cases hall : parseAll parser p (lines content) with
          | error exmsg =>
              have hrejects : Rejects parser p (lines content) := ⟨exmsg, hall⟩
              simp [Except.map, hrejects]
          | ok p' =>
              have hnot : ¬ Rejects parser p (lines content) := by
                rintro ⟨exmsg, herror⟩
                rw [hall] at herror
                cases herror
              simp [Except.map, hnot, passesWhole_lines_iff]

/-! ## An element that is not closed -/

/-- The bytes of an ASCII text. -/
def bytesOf (text : String) : List Byte :=
  text.toList.map fun c => UInt8.ofNat c.toNat

/-- An opening tag with the attributes of a program. -/
def flowTag : List Byte :=
  bytesOf "<flow name=\"f\" ofluxversion=\"x\">"

/-- The element that the handler of the opening tag gets. -/
def openedFlow : Compiler.Xml :=
  ⟨"flow", [("name", "f"), ("ofluxversion", "x")], []⟩

/-- The document of a program without contents. -/
def flowDocument : List Byte :=
  flowTag ++ bytesOf "</flow>"

/-- A parser that knows one document.  It reports an error when the bytes so far do not begin it,
and once the document is complete, when they are not all of it; the handler is called as soon as
the opening tag is there. -/
def documentParser : XmlParser (List Byte) where
  create := some []
  parse p bytes isFinal :=
    if (p ++ bytes).isPrefixOf flowDocument && (!isFinal || p ++ bytes == flowDocument) then
      if p.length < flowTag.length && flowTag.length ≤ (p ++ bytes).length then
        match readFlow openedFlow with
        | .error exmsg => .thrown exmsg
        | .ok _ => .parsed (p ++ bytes)
      else .parsed (p ++ bytes)
    else .statusError

/-- An opening tag and a line break: nobody hears that the document ends here. -/
theorem not_readsWhole_unclosed :
    ¬ ReadsWhole documentParser "flow.xml" (some (flowTag ++ [newline])) := by
  rintro ⟨result, hread, hwhole⟩
  rw [readxmlfile_iff] at hread
  have hresult : readResult documentParser "flow.xml" (some (flowTag ++ [newline])) =
      .ok [(flowTag, false)] := by decide +kernel
  obtain ⟨content, -, -, hlast⟩ := hwhole _ (hread.trans hresult)
  cases hlast

end Reader
end OFlux
