import Mathlib.Data.List.Forall2
import Ophan.Http.Utils
import Ophan.Lib.Outcome

/-!
# Request paths on the document root

`resolve` maps the raw path of a request onto the document root: the path is cut at
its separators first, and each part is decoded and checked on its own.
-/

namespace Ophan.Static

open List
open Http

inductive PathError where
  /-- Malformed percent-encoding, non UTF-8 bytes, NUL, encoded separators or dot
  segments. -/
  | malformed
  /-- A segment names a hidden file or directory while dotfiles are disabled. -/
  | hidden
  deriving DecidableEq, Repr

/-- `b'\\'` -/
abbrev backslash : UInt8 := 92

/-- `PathBuf::push` on Unix: an absolute path replaces the path it is pushed on. -/
def push (path segment : Bytes) : Bytes :=
  if segment.head? = some slash then segment
  else if path = [] ∨ path.getLast? = some slash then path ++ segment
  else path ++ slash :: segment

def percentDecode : Bytes → Outcome PathError Bytes
  | [] => .ok []
  | b :: rest =>
    if b = percent then
      match rest with
      | high :: low :: behind =>
        match hexPair high low with
        | some c => (percentDecode behind).map (c :: ·)
        | none => .err .malformed
      | _ => .err .malformed
    else
      (percentDecode rest).map (b :: ·)

/-- The text that `resolve` reads in one part of the path. -/
def decodeSegment (raw : Bytes) : Outcome PathError Bytes :=
  if percent ∈ raw then
    (percentDecode raw).bind fun segment =>
      if validUtf8 segment then .ok segment else .err .malformed
  else
    .ok raw

def checkSegment (segment : Bytes) (allowDotfiles : Bool) : Outcome PathError Unit :=
  if segment = [dot] ∨ segment = [dot, dot] then .err .malformed
  else if segment.any fun b => b = 0 || b = slash || b = backslash then .err .malformed
  else if allowDotfiles = false ∧ segment.head? = some dot then .err .hidden
  else .ok ()

def resolveParts (allowDotfiles : Bool) (resolved : Bytes) :
    List Bytes → Outcome PathError Bytes
  | [] => .ok resolved
  | raw :: parts =>
    if raw = [] then
      resolveParts allowDotfiles resolved parts
    else
      (decodeSegment raw).bind fun segment =>
        (checkSegment segment allowDotfiles).bind fun _ =>
          resolveParts allowDotfiles (push resolved segment) parts

/-- Map a raw (percent-encoded) URI path onto `root`. -/
def resolve (root uriPath : Bytes) (allowDotfiles : Bool) : Outcome PathError Bytes :=
  resolveParts allowDotfiles (push [] root) (splitAtEvery slash uriPath)

/-! ## Decoding once -/

/-- `text` with each of its escapes replaced by the byte it stands for, and the bytes
that come out not read again. -/
inductive DecodesTo : Bytes → Bytes → Prop where
  | nil : DecodesTo [] []
  | byte {b : UInt8} {text segment : Bytes} (notPercent : b ≠ percent) :
      DecodesTo text segment → DecodesTo (b :: text) (b :: segment)
  | escape {high low c : UInt8} {text segment : Bytes}
      (isPair : hexPair high low = some c) :
      DecodesTo text segment → DecodesTo (percent :: high :: low :: text) (c :: segment)

theorem DecodesTo.refl {text : Bytes} (withoutPercent : percent ∉ text) : DecodesTo text text := by
  induction text with
  | nil => exact .nil
  | cons b text ih =>
    rw [mem_cons, not_or] at withoutPercent
    exact .byte (Ne.symm withoutPercent.1) (ih withoutPercent.2)

variable {segment : Bytes}

theorem DecodesTo.ne_nil {text : Bytes} (decodes : DecodesTo text segment)
    (nonempty : text ≠ []) : segment ≠ [] := by
  cases decodes with
  | nil => exact nonempty
  | byte | escape => exact cons_ne_nil _ _

theorem percentDecode_eq_ok_iff (text segment : Bytes) :
    percentDecode text = .ok segment ↔ DecodesTo text segment := by
  constructor
  · fun_induction percentDecode text generalizing segment with
    | case1 =>
      rintro ⟨⟩
      exact .nil
    | case2 high low behind c isPair ih =>
      intro isOk
      obtain ⟨rest, isRest, isSegment⟩ := Outcome.map_eq_ok_iff.mp isOk
      exact isSegment ▸ .escape isPair (ih rest isRest)
    | case3 => rintro ⟨⟩
    | case4 => rintro ⟨⟩
    | case5 b rest notPercent ih =>
      intro isOk
      obtain ⟨decoded, isRest, isSegment⟩ := Outcome.map_eq_ok_iff.mp isOk
      exact isSegment ▸ .byte notPercent (ih decoded isRest)
  · intro decodes
    induction decodes with
    | nil => rw [percentDecode]
    | byte notPercent _ ih =>
      unfold percentDecode
      rw [if_neg notPercent, ih, Outcome.map_ok]
    | escape isPair _ ih =>
      rw [percentDecode, if_pos rfl, isPair]
      change (percentDecode _).map _ = _
      rw [ih, Outcome.map_ok]

theorem decodesTo_of_decodeSegment {raw : Bytes}
    (isOk : decodeSegment raw = .ok segment) : DecodesTo raw segment := by
  rw [decodeSegment] at isOk
  split_ifs at isOk with hasPercent
  · obtain ⟨decoded, isDecoded, isChecked⟩ := Outcome.bind_eq_ok_iff.mp isOk
    split_ifs at isChecked
    injection isChecked with isSegment
    exact isSegment ▸ (percentDecode_eq_ok_iff raw decoded).mp isDecoded
  · injection isOk with isSegment
    exact isSegment ▸ DecodesTo.refl hasPercent

/-! ## Staying below the root -/

/-- A name that stays in the directory it is looked up in. -/
structure Confined (allowDotfiles : Bool) (segment : Bytes) : Prop where
  ne_nil : segment ≠ []
  ne_dot : segment ≠ [dot]
  ne_dots : segment ≠ [dot, dot]
  slash_notMem : slash ∉ segment
  backslash_notMem : backslash ∉ segment
  nul_notMem : 0 ∉ segment
  visible : allowDotfiles = false → segment.head? ≠ some dot

theorem checkSegment_eq_ok_iff (nonempty : segment ≠ []) (allowDotfiles : Bool) :
    checkSegment segment allowDotfiles = .ok () ↔ Confined allowDotfiles segment := by
  have memIff : (segment.any fun b => b = 0 || b = slash || b = backslash) = true ↔
      0 ∈ segment ∨ slash ∈ segment ∨ backslash ∈ segment := by
    simp only [any_eq_true, Bool.or_eq_true, decide_eq_true_eq]
    constructor
    · grind
    · grind
  rw [checkSegment]
  split_ifs with isDots isBad isHidden
  · exact ⟨fun isOk => (nomatch isOk), fun confined =>
      (isDots.elim confined.ne_dot confined.ne_dots).elim⟩
  · exact ⟨fun isOk => (nomatch isOk), fun confined =>
      ((memIff.mp isBad).elim confined.nul_notMem
        fun isMem => isMem.elim confined.slash_notMem confined.backslash_notMem).elim⟩
  · exact ⟨fun isOk => (nomatch isOk), fun confined =>
      (confined.visible isHidden.1 isHidden.2).elim⟩
  · rw [memIff] at isBad
    push Not at isDots isBad isHidden
    exact ⟨fun _ => ⟨nonempty, isDots.1, isDots.2, isBad.2.1, isBad.2.2, isBad.1, isHidden⟩,
      fun _ => rfl⟩

/-- `segments` written one after the other behind `root`. -/
def below (root : Bytes) : List Bytes → Bytes
  | [] => root
  | segment :: segments =>
    (if root = [] ∨ root.getLast? = some slash then root ++ segment
      else root ++ slash :: segment) ++ joinAfter slash segments

variable {allowDotfiles : Bool}

theorem push_of_confined (confined : Confined allowDotfiles segment) (path : Bytes) :
    push path segment = below path [segment] := by
  have notAbsolute : segment.head? ≠ some slash :=
    fun isHead => confined.slash_notMem (mem_of_head? isHead)
  rw [push, if_neg notAbsolute, below, joinAfter_nil, append_nil]

theorem below_below (confined : Confined allowDotfiles segment) (root : Bytes)
    (segments : List Bytes) :
    below (below root [segment]) segments = below root (segment :: segments) := by
  cases segments with
  | nil => rfl
  | cons next segments =>
    have endsOpen : (below root [segment]).getLast? = segment.getLast? := by
      rw [below, joinAfter_nil, append_nil]
      split
      · exact List.getLast?_append_of_ne_nil _ confined.ne_nil
      · rw [List.getLast?_append_of_ne_nil _ (cons_ne_nil _ _),
          List.getLast?_cons_of_ne_nil confined.ne_nil]
    have isOpen : ¬ (below root [segment] = [] ∨ (below root [segment]).getLast? = some slash) := by
      rw [endsOpen]
      rintro (isNil | isSlash)
      · rw [isNil] at endsOpen
        exact confined.ne_nil (List.getLast?_eq_none_iff.mp endsOpen.symm)
      · exact confined.slash_notMem (mem_of_getLast? isSlash)
    rw [below, if_neg isOpen]
    simp [below]

theorem push_nil (root : Bytes) : push [] root = root := by
  simp [push]

/-- The parts of a path that `resolve` does not skip. -/
def parts (uriPath : Bytes) : List Bytes := (splitAtEvery slash uriPath).filter (· ≠ [])

theorem resolveParts_confined (raws : List Bytes)
    {resolved path : Bytes} (isOk : resolveParts allowDotfiles resolved raws = .ok path) :
    ∃ segments, List.Forall₂ DecodesTo (raws.filter (· ≠ [])) segments ∧
      path = below resolved segments ∧ ∀ segment ∈ segments, Confined allowDotfiles segment := by
  induction raws generalizing resolved with
  | nil =>
    injection isOk with isPath
    exact ⟨[], .nil, isPath.symm, fun _ isMem => nomatch isMem⟩
  | cons raw raws ih =>
    rw [resolveParts] at isOk
    by_cases isEmpty : raw = []
    · simp_all
    rw [if_neg isEmpty] at isOk
    obtain ⟨segment, isDecoded, isRest⟩ := Outcome.bind_eq_ok_iff.mp isOk
    obtain ⟨_, isChecked, isRest⟩ := Outcome.bind_eq_ok_iff.mp isRest
    have decodes := decodesTo_of_decodeSegment isDecoded
    have confined := (checkSegment_eq_ok_iff (decodes.ne_nil isEmpty) allowDotfiles).mp isChecked
    obtain ⟨segments, allDecoded, isPath, allConfined⟩ := ih isRest
    refine ⟨segment :: segments, ?_, ?_, ?_⟩
    · simp_all
    · rw [isPath, push_of_confined confined, below_below confined]
    · exact forall_mem_cons.mpr ⟨confined, allConfined⟩

/-- A path that is served is the root followed by the parts of the request path, each
decoded once and none of them able to leave its directory. -/
theorem resolve_confined (root uriPath : Bytes) (allowDotfiles : Bool) :
    ∀ path, resolve root uriPath allowDotfiles = .ok path →
      ∃ segments, List.Forall₂ DecodesTo (parts uriPath) segments ∧
        path = below root segments ∧
        ∀ segment ∈ segments, Confined allowDotfiles segment := by
  intro path isOk
  rw [resolve, push_nil] at isOk
  exact resolveParts_confined _ isOk

theorem resolve_confined_escaped :
    resolve (bytes "/srv") (bytes "//a%2520b/%2e%2e.txt/") true = .ok (bytes "/srv/a%20b/...txt") ∧
      ∃ segments, List.Forall₂ DecodesTo (parts (bytes "//a%2520b/%2e%2e.txt/")) segments ∧
        bytes "/srv/a%20b/...txt" = below (bytes "/srv") segments ∧
        ∀ segment ∈ segments, Confined true segment :=
  have isOk : resolve (bytes "/srv") (bytes "//a%2520b/%2e%2e.txt/") true =
      .ok (bytes "/srv/a%20b/...txt") := by
    decide +kernel
  ⟨isOk, resolve_confined _ _ _ _ isOk⟩

end Ophan.Static
