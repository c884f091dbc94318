import Ophan.Static.Files

/-!
# Entity tags and the conditions on them

`create_etag` writes the size, the seconds of the modification time and the inode of
a file.  Two states that agree in these share their tag, also where `is_same_file`
tells them apart by the nanoseconds.
-/

namespace Ophan.Static

open List

abbrev quote : UInt8 := 34

abbrev dash : UInt8 := 45

structure Metadata where
  dev : UInt64
  ino : UInt64
  size : UInt64
  mtime : Int64
  mtimeNsec : Int64
  ctime : Int64
  ctimeNsec : Int64
  deriving DecidableEq, Repr

def isSameFile (cached metadata : Metadata) : Bool :=
  cached.dev = metadata.dev && cached.ino = metadata.ino && cached.size = metadata.size &&
    cached.mtime = metadata.mtime && cached.mtimeNsec = metadata.mtimeNsec &&
    cached.ctime = metadata.ctime && cached.ctimeNsec = metadata.ctimeNsec

section Tag

def hex : Bytes := bytes "0123456789abcdef"

/-- The loop of `push_hex`, over the places of its buffer that are left. -/
def pushHexLoop : Nat → Nat → Bytes
  | 0, _ => []
  | places + 1, value =>
    if value = 0 then []
    else pushHexLoop places (value >>> 4) ++ [hex.getD (value &&& 0xf) 0]

def pushHex (value : UInt64) : Bytes :=
  if value = 0 then [48] else pushHexLoop 16 value.toNat

def createEtag (metadata : Metadata) : Bytes :=
  let etag := quote :: (pushHex metadata.size ++ dash :: (pushHex metadata.mtime.toUInt64 ++
    dash :: pushHex metadata.ino)) ++ [quote]
  if isHeaderValue etag then etag else bytes "\"0\""

def readHex (text : Bytes) : Nat := text.foldl (fun value b => 16 * value + hex.idxOf b) 0

theorem low_nibble (value : Nat) : value &&& 0xf = value % 16 :=
  Nat.and_two_pow_sub_one_eq_mod value 4

/-- Sixteen places hold every value, which can be read back. -/
theorem readHex_pushHexLoop {places value : Nat} (fits : value < 16 ^ places) :
    readHex (pushHexLoop places value) = value := by
  have digit : ∀ nibble < 16, hex.idxOf (hex.getD nibble 0) = nibble := by decide +kernel
  fun_induction pushHexLoop places value with
  | case1 =>
    rw [Nat.lt_one_iff.mp fits]
    rfl
  | case2 => rfl
  | case3 places value _ ih =>
    rw [Nat.shiftRight_eq_div_pow] at ih
    have front := ih (by rw [Nat.pow_succ] at fits; omega)
    rw [readHex] at front
    rw [readHex, foldl_append, Nat.shiftRight_eq_div_pow, front, low_nibble]
    simp only [foldl_cons, foldl_nil, digit _ (Nat.mod_lt value (by decide))]
    omega

theorem pushHex_inj {first second : UInt64} (same : pushHex first = pushHex second) :
    first = second := by
  have read : ∀ value : UInt64, readHex (pushHex value) = value.toNat := by
    intro value
    rw [pushHex]
    split
    next isZero =>
      rw [isZero]
      decide +kernel
    next => exact readHex_pushHexLoop value.toNat_lt
  exact UInt64.toNat.inj ((read first).symm.trans ((congrArg readHex same).trans (read second)))

theorem mem_hex_of_mem_pushHex {value : UInt64} : ∀ b ∈ pushHex value, b ∈ hex := by
  have isDigit : ∀ nibble < 16, hex.getD nibble 0 ∈ hex := by decide +kernel
  have loop : ∀ places value, ∀ b ∈ pushHexLoop places value, b ∈ hex := by
    intro places value
    fun_induction pushHexLoop places value with
    | case1 | case2 => exact forall_mem_nil _
    | case3 places value _ ih =>
      refine forall_mem_append.mpr ⟨ih, forall_mem_singleton.mpr ?_⟩
      rw [low_nibble]
      exact isDigit _ (Nat.mod_lt value (by decide))
  rw [pushHex]
  split
  · decide +kernel
  · exact loop 16 _

variable {held current : Metadata}

/-- The bytes between the quotes. -/
def tagBody (metadata : Metadata) : Bytes :=
  pushHex metadata.size ++ dash :: (pushHex metadata.mtime.toUInt64 ++ dash :: pushHex metadata.ino)

theorem tagBody_inj (same : tagBody held = tagBody current) :
    held.ino = current.ino ∧ held.size = current.size ∧ held.mtime = current.mtime := by
  have noDash : ∀ value : UInt64, dash ∉ pushHex value := fun value isMem =>
    absurd (mem_hex_of_mem_pushHex dash isMem) (by decide +kernel)
  obtain ⟨sameSize, rest⟩ := cut_unique (noDash _) (noDash _) same
  obtain ⟨sameTime, sameIno⟩ := cut_unique (noDash _) (noDash _) rest
  exact ⟨pushHex_inj sameIno, pushHex_inj sameSize, congrArg Int64.ofUInt64 (pushHex_inj sameTime)⟩

theorem mem_tagBody {metadata : Metadata} : ∀ b ∈ tagBody metadata, b ∈ dash :: hex := by
  have digits : ∀ value : UInt64, ∀ b ∈ pushHex value, b ∈ dash :: hex := fun value b isMem =>
    mem_cons_of_mem _ (mem_hex_of_mem_pushHex b isMem)
  simp only [tagBody, forall_mem_append, forall_mem_cons]
  exact ⟨digits _, mem_cons_self, digits _, mem_cons_self, digits _⟩

theorem quote_notMem_tagBody {metadata : Metadata} : quote ∉ tagBody metadata := fun isMem =>
  absurd (mem_tagBody quote isMem) (by decide +kernel)

theorem createEtag_eq (metadata : Metadata) :
    createEtag metadata = quote :: tagBody metadata ++ [quote] := by
  have visible : ∀ b ∈ dash :: hex, ((32 ≤ b && b ≠ 127) || b = 9) = true := by decide +kernel
  refine if_pos (all_eq_true.mpr ?_)
  exact forall_mem_append.mpr ⟨forall_mem_cons.mpr ⟨by decide, fun b isMem =>
    visible b (mem_tagBody b isMem)⟩, forall_mem_singleton.mpr (by decide)⟩

theorem createEtag_eq_iff : createEtag held = createEtag current ↔
    held.ino = current.ino ∧ held.size = current.size ∧ held.mtime = current.mtime := by
  rw [createEtag_eq, createEtag_eq, append_left_inj, cons_inj_right]
  constructor
  · exact tagBody_inj
  · rintro ⟨sameIno, sameSize, sameTime⟩
    rw [tagBody, tagBody, sameIno, sameSize, sameTime]

end Tag

section Conditions

structure LastModified where
  value : Bytes
  time : Nat
  deriving DecidableEq, Repr

/-- The headers of a request that the conditions read, `If-None-Match` with all its lines. -/
structure Conditions where
  ifNoneMatch : List Bytes
  ifModifiedSince : Option Bytes
  ifRange : Option Bytes
  deriving DecidableEq, Repr

/-- `W/` -/
def weak : Bytes := [87, 47]

def opaqueTag (etag : Bytes) : Bytes :=
  if weak <+: etag then etag.drop 2 else etag

def isListSpace (b : UInt8) : Bool := b = 32 || b = 9 || b = 44

/-- The loop over an `If-None-Match` line. -/
def listMatches (target list : Bytes) : Bool :=
  let rest := list.dropWhile isListSpace
  if rest = [] then false
  else if rest.head? = some 42 then true
  else
    let tagStart := if weak <+: rest then 2 else 0
    if rest[tagStart]? ≠ some quote then false
    else
      match (rest.drop (tagStart + 1)).findIdx? (· = quote) with
      | none => false
      | some close =>
        let stop := tagStart + 1 + close + 1
        if (rest.take stop).drop tagStart = target then true
        else listMatches target (rest.drop stop)
termination_by list.length
decreasing_by
  have shorter := (dropWhile_suffix (l := list) isListSpace).length_le
  have positive : 0 < (list.dropWhile isListSpace).length := length_pos_iff.mpr (by assumption)
  rw [length_drop]
  omega

def etagListMatchesWeak (list etag : Bytes) : Bool := listMatches (opaqueTag etag) list

def strongEq (a b : Bytes) : Bool := ¬ weak <+: a ∧ ¬ weak <+: b ∧ a = b

def trimOws : Bytes → Bytes := trim

variable (parseHttpDate : Bytes → Option Nat)

def LastModified.parseDate (lm : LastModified) (raw : Bytes) : Option Nat :=
  if raw = lm.value then some lm.time else parseHttpDate raw

def isNotModified (headers : Conditions) (etag : Bytes) (lastMod : Option LastModified) : Bool :=
  if headers.ifNoneMatch ≠ [] then headers.ifNoneMatch.any (etagListMatchesWeak · etag)
  else
    match headers.ifModifiedSince, lastMod with
    | some ims, some lm => (lm.parseDate parseHttpDate ims).any (lm.time ≤ ·)
    | _, _ => false

def ifRangeAllows (headers : Conditions) (etag : Bytes) (lastMod : Option LastModified) : Bool :=
  match headers.ifRange with
  | none => true
  | some value =>
    let raw := trimOws value
    if [quote] <+: raw ∨ weak <+: raw then strongEq raw etag
    else
      match lastMod, parseHttpDate value with
      | some lm, some date => lm.time = date
      | _, _ => false

/-- An entity tag, with what stands between its quotes. -/
structure EntityTag where
  isWeak : Bool
  body : Bytes
  closed : quote ∉ body

namespace EntityTag

def quoted (tag : EntityTag) : Bytes := quote :: (tag.body ++ [quote])

def text (tag : EntityTag) : Bytes := (if tag.isWeak then weak else []) ++ tag.quoted

theorem opaqueTag_text (tag : EntityTag) : opaqueTag tag.text = tag.quoted := by
  obtain ⟨isWeak, body, -⟩ := tag
  cases isWeak <;> simp [text, quoted, opaqueTag, weak, quote]

theorem quoted_eq_iff {first second : EntityTag} :
    first.quoted = second.quoted ↔ first.body = second.body := by
  simp [quoted]

end EntityTag

/-- A line with the tags that it lists, with white space, commas or nothing around them. -/
inductive TagList : Bytes → List EntityTag → Prop where
  | nil {gap : Bytes} (blank : ∀ b ∈ gap, isListSpace b = true) : TagList gap []
  | cons {gap rest : Bytes} (tag : EntityTag) {tags : List EntityTag}
      (blank : ∀ b ∈ gap, isListSpace b = true) (others : TagList rest tags) :
      TagList (gap ++ (tag.text ++ rest)) (tag :: tags)

variable {target gap : Bytes} (blank : ∀ b ∈ gap, isListSpace b = true)

include blank

theorem listMatches_star (rest : Bytes) : listMatches target (gap ++ 42 :: rest) = true := by
  have skipped : (gap ++ 42 :: rest).dropWhile isListSpace = 42 :: rest := by
    rw [dropWhile_append_of_pos blank]
    rfl
  rw [listMatches]
  simp [skipped]

/-- A round of the loop compares one tag and goes on behind it. -/
theorem listMatches_tag (tag : EntityTag) (rest : Bytes) :
    listMatches target (gap ++ (tag.text ++ rest)) =
      (decide (tag.quoted = target) || listMatches target rest) := by
  obtain ⟨isWeak, body, closed⟩ := tag
  have close : (body ++ quote :: rest).findIdx? (· = quote) = some body.length := by grind
  have taken : (body ++ quote :: rest).take (body.length + 1) = body ++ [quote] :=
    take_length_add_append 1
  have dropped : (body ++ quote :: rest).drop (body.length + 1) = rest := drop_length_add_append 1
  have spelled : EntityTag.text ⟨isWeak, body, closed⟩ ++ rest =
      (if isWeak then weak else []) ++ quote :: (body ++ quote :: rest) := by
    simp [EntityTag.text, EntityTag.quoted]
  rw [listMatches, dropWhile_append_of_pos blank, spelled, EntityTag.quoted]
  generalize body ++ quote :: rest = tail at close taken dropped
  have stop : ∀ tagStart, tagStart + 1 + body.length + 1 = body.length + 1 + (tagStart + 1) := by
    omega
  cases isWeak with
  | false =>
    have starts : (quote :: tail).dropWhile isListSpace = quote :: tail := rfl
    have others : quote ≠ 42 ∧ 87 ≠ quote := by decide
    simp [starts, others, weak, close, taken, dropped, Nat.add_comm 1]
  | true => simp [isListSpace, weak, close, taken, dropped, stop]

omit blank

theorem TagList.listMatches_iff {line : Bytes} {tags : List EntityTag} (list : TagList line tags) :
    listMatches target line = true ↔ ∃ tag ∈ tags, tag.quoted = target := by
  induction list with
  | @nil gap blank =>
    rw [← append_nil gap, listMatches, dropWhile_append_of_pos blank]
    simp
  | cons tag blank _ ih => simp [listMatches_tag blank, ih]

variable {parseHttpDate : Bytes → Option Nat} {headers : Conditions}
  {lastMod : Option LastModified} {held current : Metadata}

theorem isNotModified_of_tagLists {value : List (Bytes × List EntityTag)}
    (isSent : headers.ifNoneMatch ≠ []) (isValue : headers.ifNoneMatch = value.map Prod.fst)
    (isList : ∀ line ∈ value, TagList line.1 line.2) (file : EntityTag) :
    isNotModified parseHttpDate headers file.text lastMod = true ↔
      ∃ line ∈ value, ∃ tag ∈ line.2, tag.body = file.body := by
  unfold isNotModified etagListMatchesWeak
  rw [if_pos isSent, file.opaqueTag_text, isValue, any_map, any_eq_true]
  refine exists_congr fun line => and_congr_right fun isMem => ?_
  rw [Function.comp_apply, (isList line isMem).listMatches_iff]
  simp only [EntityTag.quoted_eq_iff]

/-- A value of `If-None-Match`: a star (`none`), or lines with the tags that they list. -/
inductive FieldValue : List Bytes → Option (List EntityTag) → Prop where
  | any {before after : Bytes} (blank : ∀ b ∈ before ++ after, isListSpace b = true) :
      FieldValue [before ++ 42 :: after] none
  | list {value : List (Bytes × List EntityTag)} (isSent : value ≠ [])
      (isList : ∀ line ∈ value, TagList line.1 line.2) :
      FieldValue (value.map Prod.fst) (some (value.flatMap Prod.snd))

/-- `If-None-Match` is met by a star and by a tag with the text of the file's tag. -/
theorem isNotModified_iff (parseHttpDate : Bytes → Option Nat) {headers : Conditions}
    (file : EntityTag) (lastMod : Option LastModified) {listed : Option (List EntityTag)}
    (isValue : FieldValue headers.ifNoneMatch listed) :
    isNotModified parseHttpDate headers file.text lastMod = true ↔
      listed = none ∨ ∃ tags, listed = some tags ∧ ∃ tag ∈ tags, tag.body = file.body := by
  generalize lines : headers.ifNoneMatch = value at isValue
  cases isValue with
  | any blank =>
    simp [isNotModified, lines, etagListMatchesWeak,
      listMatches_star (forall_mem_append.mp blank).1]
  | list isSent isList =>
    rw [isNotModified_of_tagLists (by simpa [lines] using isSent) lines isList]
    simp only [reduceCtorEq, false_or, Option.some.injEq, exists_eq_left', mem_flatMap]
    tauto

/-- A weak tag with a comma, on a second line. -/
theorem isNotModified_iff_comma :
    isNotModified (fun _ => none) ⟨[[44], [32, 87, 47, 34, 44, 34]], none, none⟩ [34, 44, 34] none =
      true := by
  let tag : EntityTag := ⟨true, [44], by decide⟩
  have second : TagList [32, 87, 47, 34, 44, 34] [tag] :=
    @TagList.cons [32] [] tag [] (by simp [isListSpace]) (.nil nofun)
  refine (isNotModified_iff _ ⟨false, [44], by decide⟩ none (@FieldValue.list
    [([44], []), ([32, 87, 47, 34, 44, 34], [tag])] (by simp) ?_)).mpr (by simp [tag])
  simpa using ⟨.nil (by simp [isListSpace]), second⟩

def Metadata.entityTag (metadata : Metadata) : EntityTag :=
  ⟨false, tagBody metadata, quote_notMem_tagBody⟩

theorem text_entityTag (metadata : Metadata) : metadata.entityTag.text = createEtag metadata :=
  (createEtag_eq metadata).symm

theorem not_weak_createEtag {metadata : Metadata} : ¬ weak <+: createEtag metadata := by
  simp [createEtag_eq, weak, quote]

theorem isNotModified_of_held (isSent : headers.ifNoneMatch ≠ [])
    (isHeld : ∀ line ∈ headers.ifNoneMatch, line = createEtag held) :
    isNotModified parseHttpDate headers (createEtag current) lastMod =
      decide (createEtag held = createEtag current) := by
  have blank : ∀ b ∈ ([] : Bytes), isListSpace b = true := by simp
  have single : TagList (createEtag held) [held.entityTag] := by
    simpa [text_entityTag] using TagList.cons held.entityTag blank (.nil blank)
  have isMatch := @isNotModified_of_tagLists parseHttpDate headers lastMod
    (headers.ifNoneMatch.map fun line => (line, [held.entityTag])) isSent
    (by simp [Function.comp_def]) (by simpa using fun line isMem => isHeld line isMem ▸ single)
    current.entityTag
  obtain ⟨line, isMem⟩ := exists_mem_of_ne_nil _ isSent
  rw [text_entityTag] at isMatch
  rw [Bool.eq_iff_iff, isMatch, decide_eq_true_iff, createEtag_eq, createEtag_eq]
  simpa [Metadata.entityTag] using fun _ => ⟨line, isMem⟩

theorem ifRangeAllows_of_held (isHeld : headers.ifRange = some (createEtag held)) :
    ifRangeAllows parseHttpDate headers (createEtag current) lastMod =
      decide (createEtag held = createEtag current) := by
  have trimmed : trimOws (createEtag held) = createEtag held := by
    simp [createEtag_eq, trimOws, trim, isWhitespace, quote]
  have opened : [quote] <+: createEtag held := by simp [createEtag_eq]
  simp only [ifRangeAllows, isHeld, trimmed, opened, true_or, if_true, strongEq,
    not_weak_createEtag, not_false_eq_true, true_and]

/-- A response is `304` or a part only where the condition on it was met. -/
theorem status_resolveFile {request : FileRequest} {file : Bytes} {response : HttpResponse}
    (isServed : resolveFile request file = .ok response) :
    (response.status = .notModified → request.notModified = true) ∧
      (response.status = .partialContent → request.ifRangeAllows = true) := by
  have taken : ∀ range, chooseRange request file.length = .ok (some range) →
      request.ifRangeAllows = true := by
    fun_cases chooseRange request file.length <;> simp_all
  have refused : ∀ refusal, ((chooseRange request file.length).bind fun range =>
      plan range file.length) = .err refusal →
      refusal.status ≠ .notModified ∧ refusal.status ≠ .partialContent := by
    have isPlan : ∀ range refusal, plan range file.length ≠ .err refusal := by
      intro range refusal
      fun_cases plan range file.length <;> simp
    fun_cases chooseRange request file.length <;> simp [rangeNotSatisfiable, isPlan]
  have planned : ∀ status rest, ((chooseRange request file.length).bind fun range =>
      plan range file.length) = .ok (status, rest) →
      status ≠ .notModified ∧ (status = .partialContent → request.ifRangeAllows = true) := by
    intro status rest isPlanned
    obtain ⟨range, isRange, isPlan⟩ := Outcome.bind_eq_ok_iff.mp isPlanned
    revert isPlan
    fun_cases plan range file.length <;> intro isPlan <;> cases isPlan
    · exact ⟨by simp, fun _ => taken _ isRange⟩
    · simp
  revert isServed
  fun_cases resolveFile request file <;> intro isServed
  case case1 isMet =>
    cases isServed
    simp [isMet]
  case case2 isRefused =>
    cases isServed
    simp [refused _ isRefused]
  case case3 => cases isServed
  case case4 isPlanned _ _ =>
    rw [← Outcome.ok.inj isServed]
    exact ⟨fun isThere => absurd isThere (planned _ _ isPlanned).1, (planned _ _ isPlanned).2⟩
  case case5 isPlanned _ _ =>
    obtain ⟨body, -, rfl⟩ := Outcome.map_eq_ok_iff.mp isServed
    exact ⟨fun isThere => absurd isThere (planned _ _ isPlanned).1, (planned _ _ isPlanned).2⟩

/-- The request with what its conditional headers decide. -/
def underConditions (request : FileRequest) (parseHttpDate : Bytes → Option Nat)
    (headers : Conditions) (etag : Bytes) (lastMod : Option LastModified) : FileRequest :=
  { request with
    notModified := isNotModified parseHttpDate headers etag lastMod
    ifRangeAllows := ifRangeAllows parseHttpDate headers etag lastMod }

/-- Tags differ where the inode, the size or the second of the modification differs, and
a client that sends the tag of one state then gets neither `304` nor a part of the
other. -/
theorem etag_tells_apart (held current : Metadata) :
    (createEtag held ≠ createEtag current ↔
      held.ino ≠ current.ino ∨ held.size ≠ current.size ∨ held.mtime ≠ current.mtime) ∧
    (createEtag held ≠ createEtag current →
      ∀ (parseHttpDate : Bytes → Option Nat) (headers : Conditions)
        (lastMod : Option LastModified) (request : FileRequest) (file : Bytes)
        (response : HttpResponse),
        resolveFile (underConditions request parseHttpDate headers (createEtag current) lastMod)
          file = .ok response →
        (headers.ifNoneMatch ≠ [] →
          (∀ line ∈ headers.ifNoneMatch, line = createEtag held) →
          response.status ≠ .notModified) ∧
        (headers.ifRange = some (createEtag held) → response.status ≠ .partialContent)) := by
  refine ⟨?_, fun differ parseHttpDate headers lastMod request file response isServed =>
    ⟨fun isSent isHeld isThere => ?_, fun isHeld isPart => ?_⟩⟩
  · rw [ne_eq, createEtag_eq_iff]
    tauto
  · have isMet := (status_resolveFile isServed).1 isThere
    rw [underConditions, isNotModified_of_held isSent isHeld] at isMet
    exact differ (of_decide_eq_true isMet)
  · have isMet := (status_resolveFile isServed).2 isPart
    rw [underConditions, ifRangeAllows_of_held isHeld] at isMet
    exact differ (of_decide_eq_true isMet)

/-- A file that is written twice within a second. -/
def writtenAt (nanoseconds : Int64) : Metadata :=
  ⟨1, 5586, 1018, 1723243902, nanoseconds, 1723243902, nanoseconds⟩

theorem one_tag_within_second :
    (writtenAt 1).mtimeNsec ≠ (writtenAt 2).mtimeNsec ∧
      isSameFile (writtenAt 1) (writtenAt 2) = false ∧
      createEtag (writtenAt 1) = createEtag (writtenAt 2) :=
  ⟨by decide +kernel, by decide +kernel, createEtag_eq_iff.mpr ⟨rfl, rfl, rfl⟩⟩

end Conditions

end Ophan.Static
