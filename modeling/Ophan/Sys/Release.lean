import Mathlib.Data.Char
import Mathlib.Data.List.Lex
import Mathlib.Data.Prod.Lex
import Mathlib.Data.Sum.Order
import Ophan.Lib.Split
import Ophan.Lib.Str

/-!
# Versions of releases

The installed version is compared with the published one by their texts.  A
semantic version is read rightly unless its build metadata is in the way or a
number is too large, and two pre-releases of one version are never ordered.
-/

namespace Ophan.Sys.Release

open Ophan.Lib Ophan.Lib.Str

/-- `n.parse().unwrap_or(0)` -/
def number (n : Str) : Nat := (parseU64 n).getD 0

/-- The numbers before the first `-`, and whether there is none. -/
def parts (version : Str) : List Nat ×ₗ Bool :=
  let core := version.takeWhile (· != '-')
  toLex ((splitAtEvery '.' core).map number, decide ('-' ∉ version))

def isNewer (candidate current : Str) : Bool := parts current < parts candidate

/-! ## Semantic versions -/

def IsIdentifier (text : Str) : Prop :=
  text ≠ [] ∧ ∀ c ∈ text, c.isAlphanum = true ∨ c = '-'

/-- A numeric identifier of a pre-release comes before the others. -/
structure Version where
  major : Nat
  minor : Nat
  patch : Nat
  pre : List (ℕ ⊕ₗ Str)
  build : List Str
  preIdentifiers : ∀ text, toLex (Sum.inr text) ∈ pre →
    IsIdentifier text ∧ ∃ c ∈ text, c.isDigit = false
  buildIdentifiers : ∀ text ∈ build, IsIdentifier text

namespace Version

def core (v : Version) : List Nat := [v.major, v.minor, v.patch]

/-- Build metadata does not count, and a release comes behind its pre-releases. -/
def precedence (v : Version) : List Nat ×ₗ WithTop (List (ℕ ⊕ₗ Str)) :=
  toLex (v.core, if v.pre = [] then ⊤ else v.pre)

def identifierText (identifier : ℕ ⊕ₗ Str) : Str := (ofLex identifier).elim (Nat.toDigits 10) id

def marked (mark : Char) : List Str → Str
  | [] => []
  | first :: rest => mark :: first ++ joinAfter '.' rest

def text (v : Version) : Str :=
  Nat.toDigits 10 v.major ++ '.' :: Nat.toDigits 10 v.minor ++ '.' :: Nat.toDigits 10 v.patch ++
    (marked '-' (v.pre.map identifierText) ++ marked '+' v.build)

def Fits (v : Version) : Prop := v.major < 2 ^ 64 ∧ v.minor < 2 ^ 64 ∧ v.patch < 2 ^ 64

/-- No number is too large, and the metadata is behind a pre-release or hides a
last number 0. -/
def ReadsExact (v : Version) : Prop :=
  v.Fits ∧ (v.build = [] ∨ v.pre ≠ [] ∨ v.patch = 0 ∧ ∃ only, v.build = [only] ∧ '-' ∉ only)

/-- A release whose numbers fit, without metadata. -/
def Plain (v : Version) : Prop := v.pre = [] ∧ v.build = [] ∧ v.Fits

/-- The comparison of the texts is the one of the precedences. -/
def OrderedRightly (a b : Version) : Prop :=
  isNewer a.text b.text = true ↔ b.precedence < a.precedence

/-! ## What is read -/

/-- A number that is too large is taken for 0. -/
def clip (n : Nat) : Nat := if n < 2 ^ 64 then n else 0

theorem not_mem_toDigits (n : Nat) {c : Char} (other : c.isDigit = false) :
    c ∉ Nat.toDigits 10 n := by
  intro member
  simp [Nat.isDigit_of_mem_toDigits (by decide) (by decide) member] at other

theorem number_toDigits (n : Nat) : number (Nat.toDigits 10 n) = clip n := by
  have numeral : Numeral (Nat.toDigits 10 n) n :=
    ⟨_, Or.inl rfl, Nat.toDigits_ne_nil,
      fun _ => Nat.isDigit_of_mem_toDigits (by decide) (by decide), by simp⟩
  rw [number, numeral.parseU64, clip]
  split <;> rfl

/-- A plus sign is read in front only. -/
theorem number_metadata (n : Nat) (more : Str) : number (Nat.toDigits 10 n ++ '+' :: more) = 0 := by
  obtain ⟨first, rest, digitsOf⟩ := List.exists_cons_of_ne_nil (@Nat.toDigits_ne_nil n 10)
  rw [number, digitsOf]
  cases parsed : parseU64 (first :: rest ++ '+' :: more) with
  | none => rfl
  | some number =>
    obtain ⟨⟨digits, spelled, -, isDigit, -⟩, -⟩ := numeral_of_parseU64 parsed
    have member : '+' ∈ digits := by grind
    exact absurd (isDigit '+' member) (by decide)

theorem takeWhile_append {text : Str} (noDash : '-' ∉ text) (rest : Str) :
    (text ++ rest).takeWhile (· != '-') = text ++ rest.takeWhile (· != '-') := by
  refine List.takeWhile_append_of_pos fun c member => ?_
  simpa using ne_of_mem_of_not_mem member noDash

/-- The metadata is read as 0 in the place of the last number, and may add more. -/
theorem number_build (n : Nat) {first : Str} (noDot : '.' ∉ first) (rest : List Str) :
    ∃ more,
      (splitAtEvery '.' (Nat.toDigits 10 n ++
        (marked '+' (first :: rest)).takeWhile (· != '-'))).map number = 0 :: more ∧
        (more = [] ∧ '-' ∉ marked '+' (first :: rest) ↔ rest = [] ∧ '-' ∉ first) := by
  have noDotNumber : '.' ∉ Nat.toDigits 10 n := not_mem_toDigits n (by decide)
  have taken : (marked '+' (first :: rest)).takeWhile (· != '-') =
      '+' :: (first ++ joinAfter '.' rest).takeWhile (· != '-') := by simp [marked]
  rw [taken]
  rcases exists_cut '.' ((first ++ joinAfter '.' rest).takeWhile (· != '-')) with
    without | ⟨part, others, without, cut⟩
  · refine ⟨[], ?_, ?_, ?_⟩
    · rw [splitAtEvery_of_not_mem (by simp [noDotNumber, without])]
      simp [number_metadata]
    · rintro ⟨-, noDash⟩
      have noDashFirst : '-' ∉ first := fun member => noDash (by simp [marked, member])
      cases rest with
      | nil => exact ⟨rfl, noDashFirst⟩
      | cons next rest => simp [takeWhile_append noDashFirst] at without
    · rintro ⟨rfl, noDash⟩
      simp [marked, noDash]
  · refine ⟨(splitAtEvery '.' others).map number, ?_, ?_, ?_⟩
    · rw [cut, ← List.cons_append, ← List.append_assoc,
        splitAtEvery_append_sep (by simp [noDotNumber, without])]
      simp [number_metadata]
    · rintro ⟨isNil, -⟩
      simp [splitAtEvery_ne_nil] at isNil
    · rintro ⟨rfl, -⟩
      rw [joinAfter_nil, List.append_nil] at cut
      exact absurd (List.takeWhile_subset (· != '-') (by simp [cut])) noDot

theorem parts_text (v : Version) :
    ∃ third more flag,
      parts v.text = toLex (clip v.major :: clip v.minor :: third :: more, flag) ∧
        (third = clip v.patch ∨ third = 0) ∧
        (third = v.patch ∧ more = [] ∧ flag = decide (v.pre = []) ↔ v.patch = clip v.patch ∧
          (v.build = [] ∨ v.pre ≠ [] ∨ v.patch = 0 ∧ ∃ only, v.build = [only] ∧ '-' ∉ only)) := by
  have noDash (n : Nat) : '-' ∉ Nat.toDigits 10 n := not_mem_toDigits n (by decide)
  have noDot (n : Nat) : '.' ∉ Nat.toDigits 10 n := not_mem_toDigits n (by decide)
  have read (tail : Str) : parts (Nat.toDigits 10 v.major ++ '.' :: Nat.toDigits 10 v.minor ++
      '.' :: Nat.toDigits 10 v.patch ++ tail) = toLex (clip v.major :: clip v.minor ::
        (splitAtEvery '.' (Nat.toDigits 10 v.patch ++ tail.takeWhile (· != '-'))).map number,
        decide ('-' ∉ tail)) := by
    simp [parts, takeWhile_append (noDash _), noDash, splitAtEvery_append_sep (noDot _),
      number_toDigits]
  rw [text, read]
  cases isPre : v.pre with
  | cons first rest =>
    refine ⟨clip v.patch, [], false, ?_, Or.inl rfl, by simp [eq_comm]⟩
    simp [marked, splitAtEvery_of_not_mem (noDot _), number_toDigits]
  | nil =>
    cases isBuild : v.build with
    | nil =>
      refine ⟨clip v.patch, [], true, ?_, Or.inl rfl, by simp [eq_comm]⟩
      simp [marked, splitAtEvery_of_not_mem (noDot _), number_toDigits]
    | cons first rest =>
      have noDotFirst : '.' ∉ first := by
        intro member
        have isPart := (v.buildIdentifiers first (by simp [isBuild])).2 '.' member
        revert isPart
        decide
      obtain ⟨more, isMore, alone⟩ := number_build v.patch noDotFirst rest
      refine ⟨0, more, decide ('-' ∉ marked '+' (first :: rest)), by rw [← isMore]; rfl,
        Or.inr rfl, ?_⟩
      have zero : clip 0 = 0 := rfl
      rw [decide_eq_decide, iff_true_right rfl, alone]
      grind

theorem eq_clip_iff {n : Nat} : n = clip n ↔ n < 2 ^ 64 := by
  grind [clip]

theorem readsExact_iff (v : Version) :
    v.ReadsExact ↔ parts v.text = toLex (v.core, decide (v.pre = [])) := by
  obtain ⟨third, more, flag, isParts, -, alone⟩ := parts_text v
  rw [isParts, ReadsExact]
  simp only [Fits, and_assoc, ← eq_clip_iff]
  rw [← alone]
  simp [core, and_assoc, eq_comm]

theorem orderedRightly_of_reads {a b : Version} (first : a.ReadsExact) (second : b.ReadsExact) :
    OrderedRightly a b ↔ ¬ (a.core = b.core ∧ b.pre ≠ [] ∧ b.pre < a.pre) := by
  rw [OrderedRightly, isNewer, (readsExact_iff a).mp first, (readsExact_iff b).mp second]
  simp only [precedence, Prod.Lex.toLex_lt_toLex, decide_eq_true_eq]
  by_cases same : a.core = b.core
  · by_cases secondPre : b.pre = [] <;> by_cases firstPre : a.pre = [] <;>
      simp [same, secondPre, firstPre]
  · simp [same, Ne.symm same]

theorem readsExact_of_ordered {a : Version}
    (ordered : ∀ b, Plain b → OrderedRightly a b ∧ OrderedRightly b a) : a.ReadsExact := by
  obtain ⟨third, more, flag, isParts, isThird, -⟩ := parts_text a
  have above (major minor patch : Nat) (fits : major < 2 ^ 64 ∧ minor < 2 ^ 64 ∧ patch < 2 ^ 64)
      (below : [major, minor, patch] < a.core) :
      ¬ clip a.major :: clip a.minor :: third :: more < [major, minor, patch] := by
    let b : Version := ⟨major, minor, patch, [], [], by simp, by simp⟩
    have newer := (ordered b ⟨rfl, rfl, fits⟩).1.mpr (Prod.Lex.toLex_lt_toLex.mpr (Or.inl below))
    rw [isNewer, isParts, (readsExact_iff b).mp ⟨fits, Or.inl rfl⟩, decide_eq_true_eq,
      Prod.Lex.toLex_lt_toLex] at newer
    exact newer.elim lt_asymm fun same => not_lt_of_ge (le_of_eq same.1)
  have fits : a.Fits := by
    have isMajor : a.major < 2 ^ 64 := by
      by_contra large
      refine above 1 0 0 (by decide) ?_
        (by simp [show clip _ = 0 from if_neg large, List.cons_lt_cons_iff])
      simp [core, List.cons_lt_cons_iff]
      omega
    have sameMajor : clip a.major = a.major := if_pos isMajor
    have isMinor : a.minor < 2 ^ 64 := by
      by_contra large
      refine above a.major 1 0 ⟨isMajor, by decide⟩ ?_ (by
        simp [sameMajor, show clip _ = 0 from if_neg large, List.cons_lt_cons_iff])
      simp [core, List.cons_lt_cons_iff]
      omega
    refine ⟨isMajor, isMinor, ?_⟩
    by_contra large
    have isZero : third = 0 := isThird.elim (·.trans (if_neg large)) id
    have sameMinor : clip a.minor = a.minor := if_pos isMinor
    refine above a.major a.minor 1 ⟨isMajor, isMinor, by decide⟩ ?_ (by
      simp [sameMajor, sameMinor, isZero, List.cons_lt_cons_iff])
    simp [core, List.cons_lt_cons_iff]
    omega
  by_cases isPre : a.pre = []
  · let b : Version := ⟨a.major, a.minor, a.patch, [], [], by simp, by simp⟩
    have same : b.precedence = a.precedence := by simp [b, precedence, core, isPre]
    have plain : Plain b := ⟨rfl, rfl, fits⟩
    obtain ⟨notAbove, notBelow⟩ := ordered b plain
    simp only [OrderedRightly, isNewer, same, lt_irrefl, decide_eq_true_eq, iff_false, not_lt]
      at notAbove notBelow
    rw [readsExact_iff, le_antisymm notAbove notBelow, (readsExact_iff b).mp ⟨fits, Or.inl rfl⟩]
    simp [b, core, isPre]
  · exact ⟨fits, Or.inr (Or.inl isPre)⟩

/-- Versions that are read exactly are ordered by precedence, two pre-releases of
one version apart, and only these are so against every plain release. -/
theorem orderedRightly_iff (a : Version) :
    (∀ b : Version, a.ReadsExact → b.ReadsExact →
      (OrderedRightly a b ↔ ¬ (a.core = b.core ∧ b.pre ≠ [] ∧ b.pre < a.pre))) ∧
    ((∀ b, Plain b → OrderedRightly a b ∧ OrderedRightly b a) ↔ a.ReadsExact) := by
  refine ⟨fun b first second => orderedRightly_of_reads first second, ?_⟩
  refine ⟨readsExact_of_ordered, fun exactly b plain => ?_⟩
  have plainExact : b.ReadsExact := ⟨plain.2.2, Or.inl plain.2.1⟩
  rw [orderedRightly_of_reads exactly plainExact, orderedRightly_of_reads plainExact exactly]
  simp [plain.1]

/-- The metadata hides the last number. -/
theorem isNewer_hidden :
    ∃ a b : Version, a.text = "1.0.3+b".toList ∧ b.text = "1.0.2".toList ∧
      b.precedence < a.precedence ∧ isNewer a.text b.text = false := by
  refine ⟨⟨1, 0, 3, [], [['b']], by simp, by simp [IsIdentifier]⟩,
    ⟨1, 0, 2, [], [], by simp, by simp⟩, by decide, by decide, ?_, by decide⟩
  exact Prod.Lex.toLex_lt_toLex.mpr (Or.inl (by decide))

end Version

end Ophan.Sys.Release
