import Ophan.Static.Ranges

/-!
# Files and parts of files

`resolve_file` once the file is open: its bytes, and with them its size, are those
of the handle.  What the conditional headers decide is an input.
-/

namespace Ophan.Static

def smallFileMax : Nat := 256 * 1024

def readChunk : Nat := 256 * 1024

inductive IoError where
  | unexpectedEof
  deriving DecidableEq, Repr

section Reading

def readExactAt (file : Bytes) (offset len : Nat) : Outcome IoError Bytes :=
  if offset + len ≤ file.length then .ok ((file.drop offset).take len)
  else .err .unexpectedEof

def fileStream (file : Bytes) (offset remaining : Nat) : Outcome IoError (List Bytes) :=
  if _ : remaining = 0 then .ok []
  else
    (readExactAt file offset (min remaining readChunk)).bind fun chunk =>
      (addWord offset (min remaining readChunk)).bind fun next =>
        (fileStream file next (remaining - min remaining readChunk)).map (chunk :: ·)
termination_by remaining
decreasing_by
  simp only [readChunk]
  omega

end Reading

inductive HttpBody where
  | bytes (body : Bytes)
  | stream (chunks : Outcome IoError (List Bytes))
  deriving DecidableEq, Repr

def HttpBody.sent : HttpBody → Outcome IoError Bytes
  | .bytes body => .ok body
  | .stream chunks => chunks.map List.flatten

inductive FileStatus where
  | ok
  | partialContent
  | notModified
  | badRequest
  | rangeNotSatisfiable
  deriving DecidableEq, Repr

structure HttpResponse where
  status : FileStatus
  contentLength : Option Bytes
  contentRange : Option Bytes
  body : Option HttpBody
  deriving DecidableEq, Repr

/-- What `resolve_file` reads of the request and of the configuration: the method,
`is_not_modified`, the flag `RANGE_REQUESTS`, the first `Range` header and
`if_range_allows`. -/
structure FileRequest where
  head : Bool
  notModified : Bool
  rangeRequests : Bool
  range : Option Bytes
  ifRangeAllows : Bool
  deriving DecidableEq, Repr

def rangeNotSatisfiable (fileSize : Nat) : HttpResponse where
  status := .rangeNotSatisfiable
  contentLength := some (decimal 0)
  contentRange := some (bytes "bytes */" ++ decimal fileSize)
  body := none

/-- The part of the file that is asked for, or the response that refuses it. -/
def chooseRange (request : FileRequest) (fileSize : Nat) :
    Outcome HttpResponse (Option HttpRange) :=
  match request.range with
  | none => .ok none
  | some header =>
    if request.rangeRequests ∧ request.ifRangeAllows then
      match HttpRange.parse header fileSize with
      | .ok ranges =>
        if ranges.head?.any fun range => range.length = 0 then
          .err (rangeNotSatisfiable fileSize)
        else .ok ranges.head?
      | .err error =>
        if error = .invalidRange ∨ error = .noOverlap then
          .err (rangeNotSatisfiable fileSize)
        else .err ⟨.badRequest, none, none, none⟩
      | .panic => .panic
    else .ok none

/-- The status, the offset, the length and the `Content-Range` of a response. -/
def plan (range : Option HttpRange) (fileSize : Nat) :
    Outcome HttpResponse (FileStatus × Nat × Nat × Option Bytes) :=
  match range with
  | some range =>
    match (ContentRange.mk range.start range.length fileSize).tryIntoHeaderValue with
    | .ok value =>
      .ok (.partialContent, range.start, range.length, some (value.getD (bytes "bytes 0-0/0")))
    | _ => .panic
  | none => .ok (.ok, 0, fileSize, none)

/-- An error of a read becomes an internal error of the service. -/
def fileBody (file : Bytes) (offset length : Nat) : Outcome IoError HttpBody :=
  if length ≤ smallFileMax then (readExactAt file offset length).map .bytes
  else .ok (.stream (fileStream file offset length))

def resolveFile (request : FileRequest) (file : Bytes) : Outcome IoError HttpResponse :=
  if request.notModified then .ok ⟨.notModified, some (decimal 0), none, none⟩
  else
    match (chooseRange request file.length).bind fun range => plan range file.length with
    | .err response => .ok response
    | .panic => .panic
    | .ok (status, offset, length, contentRange) =>
      let response : HttpResponse := ⟨status, some (decimal length), contentRange, none⟩
      if request.head then .ok response
      else (fileBody file offset length).map fun body => { response with body := some body }

section Sent

variable {file : Bytes}

theorem readExactAt_of_le {offset len : Nat} (inside : offset + len ≤ file.length) :
    readExactAt file offset len = .ok ((file.drop offset).take len) :=
  if_pos inside

/-- The chunks of a stream are the part of the file that it was made for. -/
theorem fileStream_flatten (fits : file.length ≤ wordMax) {offset remaining : Nat}
    (inside : offset + remaining ≤ file.length) :
    (fileStream file offset remaining).map List.flatten =
      .ok ((file.drop offset).take remaining) := by
  induction remaining using Nat.strongRecOn generalizing offset with
  | ind remaining ih =>
    rw [fileStream]
    split
    next isEnd => simp [isEnd]
    next notEnd =>
      generalize isRead : min remaining readChunk = read
      have readLe : read ≤ remaining := isRead ▸ Nat.min_le_left _ _
      have readPositive : 0 < read := by
        rw [← isRead, readChunk]
        omega
      have rest := ih (remaining - read) (by omega)
        (show offset + read + (remaining - read) ≤ file.length by omega)
      rw [readExactAt_of_le (by omega), Outcome.bind_ok, addWord_of_le (by omega), Outcome.bind_ok]
      obtain ⟨chunks, isChunks, isFlat⟩ := Outcome.map_eq_ok_iff.mp rest
      rw [isChunks, Outcome.map_ok, Outcome.map_ok, List.flatten_cons, isFlat, ← List.drop_drop]
      have cut : remaining = read + (remaining - read) := by omega
      conv_rhs => rw [cut, List.take_add]

theorem fileBody_sent (fits : file.length ≤ wordMax) {offset length : Nat}
    (inside : offset + length ≤ file.length) :
    ∃ body, fileBody file offset length = .ok body ∧
      body.sent = .ok ((file.drop offset).take length) := by
  rw [fileBody]
  split
  · exact ⟨_, by rw [readExactAt_of_le inside]; rfl, rfl⟩
  · exact ⟨_, rfl, fileStream_flatten fits inside⟩

end Sent

section Served

variable {file : Bytes}

/-- Which range is taken: the first of the header, which lies inside the file and is not
empty. -/
theorem chooseRange_inside (request : FileRequest) (fits : file.length ≤ wordMax) :
    chooseRange request file.length ≠ .panic ∧
      (∀ range, chooseRange request file.length = .ok (some range) →
        range.Inside file.length ∧ range.length ≠ 0 ∧
          ∃ header ranges, request.range = some header ∧
            HttpRange.parse header file.length = .ok (range :: ranges)) ∧
      ∀ response, chooseRange request file.length = .err response →
        response.status ≠ .partialContent := by
  rw [chooseRange]
  cases isRange : request.range with
  | none => simp
  | some header =>
    obtain ⟨noPanic, inside⟩ := parse_inside header fits
    by_cases allowed : request.rangeRequests ∧ request.ifRangeAllows
    · simp only [if_pos allowed]
      cases isParsed : HttpRange.parse header file.length with
      | panic => exact absurd isParsed noPanic
      | err error =>
        dsimp only
        split <;> simp [rangeNotSatisfiable]
      | ok ranges =>
        cases ranges with
        | nil => simp
        | cons range rest =>
          have isInside := inside _ isParsed range List.mem_cons_self
          simp only [List.head?_cons, Option.any_some, decide_eq_true_eq]
          split
          next isEmpty => simp [rangeNotSatisfiable]
          next notEmpty =>
            refine ⟨by simp, fun taken isTaken => ?_, by simp⟩
            cases isTaken
            exact ⟨isInside, notEmpty, header, rest, rfl, isParsed⟩
    · simp only [if_neg allowed]
      simp

/-- Every range of a header lies inside the file, and none is empty unless the file is.  A
response is computed without overflow, and one with status 206 announces and sends
exactly the bytes of the first range of the header. -/
theorem range_served (request : FileRequest) (fits : file.length ≤ wordMax) :
    (∀ header ranges, HttpRange.parse header file.length = .ok ranges →
      ∀ range ∈ ranges, range.length = 0 ∧ file.length = 0 ∨
        ∃ stop, (ContentRange.mk range.start range.length file.length).stop = .ok stop ∧
          range.start ≤ stop ∧ stop < file.length) ∧
    ∃ response, resolveFile request file = .ok response ∧
      (response.status = .partialContent →
        ∃ header ranges start stop, request.range = some header ∧
          HttpRange.parse header file.length = .ok (⟨start, stop - start + 1⟩ :: ranges) ∧
          start ≤ stop ∧ stop < file.length ∧
          response.contentLength = some (decimal (stop - start + 1)) ∧
          response.contentRange = some (contentRangeText start stop file.length) ∧
          (request.head = false → ∃ body, response.body = some body ∧
            body.sent = .ok ((file.drop start).take (stop - start + 1)))) := by
  refine ⟨?_, ?_⟩
  · intro header ranges isParsed range member
    have inside := (parse_inside header fits).2 ranges isParsed range member
    by_cases isEmpty : range.length = 0
    · exact Or.inl ⟨isEmpty, inside.2 isEmpty⟩
    · exact Or.inr ⟨_, stop_of_inside fits inside isEmpty file.length⟩
  · rw [resolveFile]
    split
    · exact ⟨_, rfl, by simp⟩
    · obtain ⟨noPanic, taken, refused⟩ := chooseRange_inside request fits
      cases chosen : chooseRange request file.length with
      | panic => exact absurd chosen noPanic
      | err response =>
        exact ⟨response, rfl, fun isPartial => absurd isPartial (refused response chosen)⟩
      | ok range =>
        cases range with
        | none =>
          obtain ⟨body, isBody, _⟩ := fileBody_sent fits (Nat.le_of_eq (Nat.zero_add file.length))
          simp only [Outcome.bind_ok, plan, isBody, Outcome.map_ok]
          split <;> exact ⟨_, rfl, fun isPartial => by cases isPartial⟩
        | some range =>
          obtain ⟨inside, notEmpty, header, ranges, isHeader, isParsed⟩ := taken range chosen
          have isText := tryIntoHeaderValue_of_inside fits inside notEmpty
          obtain ⟨_, isLe, isLt⟩ := stop_of_inside fits inside notEmpty file.length
          obtain ⟨body, isBody, isSent⟩ := fileBody_sent fits inside.1
          have isLength : range.start + range.length - 1 - range.start + 1 = range.length := by
            omega
          simp only [Outcome.bind_ok, plan, isText, Option.getD_some, isBody, Outcome.map_ok]
          split
          next isHead =>
            refine ⟨_, rfl, fun _ => ⟨header, ranges, range.start, _, isHeader, ?_, isLe, isLt,
              ?_, rfl, fun notHead => ?_⟩⟩
            · rw [isLength]
              exact isParsed
            · rw [isLength]
            · rw [isHead] at notHead
              cases notHead
          next notHead =>
            refine ⟨_, rfl, fun _ => ⟨header, ranges, range.start, _, isHeader, ?_, isLe, isLt,
              ?_, rfl, fun _ => ⟨body, rfl, ?_⟩⟩⟩
            · rw [isLength]
              exact isParsed
            · rw [isLength]
            · rw [isLength]
              exact isSent

/-- The last three bytes of ten. -/
theorem range_served_suffix :
    ∃ response body, resolveFile ⟨false, false, true, some (bytes "bytes=-3"), true⟩
        [48, 49, 50, 51, 52, 53, 54, 55, 56, 57] = .ok response ∧
      response.status = .partialContent ∧ response.contentLength = some (bytes "3") ∧
      response.contentRange = some (bytes "bytes 7-9/10") ∧ response.body = some body ∧
      body.sent = .ok [55, 56, 57] := by
  obtain ⟨_, response, isResponse, served⟩ := range_served
    (⟨false, false, true, some (bytes "bytes=-3"), true⟩ : FileRequest)
    (show [48, 49, 50, 51, 52, 53, 54, 55, 56, (57 : UInt8)].length ≤ wordMax by decide)
  have isPartial : response.status = .partialContent := by
    have status := congrArg (Outcome.map (·.status)) isResponse
    exact Outcome.ok.inj (status.symm.trans (by decide +kernel))
  obtain ⟨header, ranges, start, stop, isHeader, isParsed, isLe, -, length, range, sent⟩ :=
    served isPartial
  cases isHeader
  have isRange : HttpRange.parse (bytes "bytes=-3") 10 = .ok [⟨7, 3⟩] := by decide +kernel
  have isFirst := isRange.symm.trans isParsed
  simp only [Outcome.ok.injEq, List.cons.injEq, HttpRange.mk.injEq] at isFirst
  obtain ⟨⟨rfl, isLength⟩, -⟩ := isFirst
  obtain rfl : stop = 9 := by omega
  obtain ⟨body, isBody, isSent⟩ := sent rfl
  exact ⟨response, body, isResponse, isPartial, length.trans (by decide +kernel),
    range.trans (by decide +kernel), isBody, isSent⟩

end Served

end Ophan.Static
