import Bazalt.Lib.Occurrence
import Bazalt.Lib.Trim
import Bazalt.Model

/-!
# Message framing

The searches in the buffer of a parser, the size of a chunk, and what the rest of the parser
uses of a header block.
-/

namespace Bazalt.Http

open Lib

section Search

/-- The first position from `start` on at which `word` stands, after `windows`. -/
def positionFrom (word v : Bytes) (start : ℕ) : Option ℕ :=
  (List.range (v.length + 1 - word.length - start)).find? (fun i ↦
    decide (OccursAt word v (start + i))) |>.map (start + ·)

/-- The search for a line end, which need not look at the bytes before `start` again. -/
def findFrom (word v : Bytes) (start : ℕ) : Option ℕ :=
  if v.length < word.length then none
  else positionFrom word v (min start (v.length - (word.length - 1)))

def crlf : Bytes := [13, 10]

def doubleCrlf : Bytes := [13, 10, 13, 10]

def findCrlfFrom : Bytes → ℕ → Option ℕ := findFrom crlf

def findDoubleCrlfFrom : Bytes → ℕ → Option ℕ := findFrom doubleCrlf

variable {word v : Bytes} {start pos n : ℕ}

theorem positionFrom_eq_some (h : positionFrom word v start = some pos) :
    OccursAt word v pos ∧ pos + word.length ≤ v.length ∧
      ∀ i, start ≤ i → i < pos → ¬OccursAt word v i := by
  unfold positionFrom at h
  obtain ⟨k, hk, rfl⟩ := Option.map_eq_some_iff.mp h
  obtain ⟨hword, hlt, hfirst⟩ := List.find?_range_eq_some.mp hk
  rw [List.mem_range] at hlt
  refine ⟨by simpa using hword, by omega, fun i hi hik hoccurs ↦ ?_⟩
  have hbefore := hfirst (i - start) (by omega)
  rw [Nat.add_sub_cancel' hi] at hbefore
  simp [hoccurs] at hbefore

theorem positionFrom_eq_none (h : positionFrom word v start = none) (hword : word ≠ []) :
    ∀ i, start ≤ i → ¬OccursAt word v i := by
  intro i hi hoccurs
  unfold positionFrom at h
  rw [Option.map_eq_none_iff, List.find?_eq_none] at h
  have hend := hoccurs.end_le hword
  have hat := h (i - start) (List.mem_range.mpr (by omega))
  rw [Nat.add_sub_cancel' hi] at hat
  simp [hoccurs] at hat

theorem findFrom_le (h : findFrom word v start = some pos) : pos + word.length ≤ v.length := by
  unfold findFrom at h
  split_ifs at h
  exact (positionFrom_eq_some h).2.1

theorem findCrlfFrom_le (h : findCrlfFrom v start = some pos) : pos + 2 ≤ v.length :=
  findFrom_le h

theorem findDoubleCrlfFrom_le (h : findDoubleCrlfFrom v start = some pos) : pos + 4 ≤ v.length :=
  findFrom_le h

/-- The first `n` positions have been looked at, and `word` stands at none of them. -/
structure ScannedTo (word v : Bytes) (n : ℕ) : Prop where
  absent : ∀ i < n, ¬OccursAt word v i
  inside : n = 0 ∨ n + word.length ≤ v.length + 1

theorem scannedTo_zero (word v : Bytes) : ScannedTo word v 0 :=
  ⟨fun i hi ↦ absurd hi (Nat.not_lt_zero i), .inl rfl⟩

/-- Bytes that are appended do not change what was looked at. -/
theorem ScannedTo.append (h : ScannedTo word v n) (rest : Bytes) : ScannedTo word (v ++ rest) n := by
  refine ⟨fun i hi hoccurs ↦ ?_, ?_⟩
  · rcases h.inside with hzero | hle
    · omega
    · refine h.absent i hi ?_
      have hlen : word.length ≤ (v.drop i).length := by
        rw [List.length_drop]
        omega
      rw [OccursAt, List.drop_append_of_le_length (by omega)] at hoccurs
      exact List.prefix_of_prefix_length_le hoccurs (List.prefix_append _ _) hlen
  · rcases h.inside with hzero | hle
    · exact .inl hzero
    · exact .inr (by rw [List.length_append]; omega)

/-- Without an occurrence, everything but the last bytes has been looked at. -/
theorem scannedTo_of_absent (h : ∀ i, ¬OccursAt word v i) (hword : word ≠ []) :
    ScannedTo word v (v.length - (word.length - 1)) := by
  have hpos : 0 < word.length := List.length_pos_of_ne_nil hword
  exact ⟨fun i _ ↦ h i, by omega⟩

theorem findFrom_eq_some (hscan : ScannedTo word v n) (h : findFrom word v n = some pos) :
    OccursAt word v pos ∧ ∀ i < pos, ¬OccursAt word v i := by
  unfold findFrom at h
  split_ifs at h
  obtain ⟨hoccurs, -, hfirst⟩ := positionFrom_eq_some h
  refine ⟨hoccurs, fun i hi ↦ ?_⟩
  rcases Nat.lt_or_ge i n with hlt | hge
  · exact hscan.absent i hlt
  · exact hfirst i ((min_le_left _ _).trans hge) hi

theorem findFrom_eq_none (hscan : ScannedTo word v n) (h : findFrom word v n = none)
    (hword : word ≠ []) : ∀ i, ¬OccursAt word v i := by
  intro i
  unfold findFrom at h
  split_ifs at h with hshort
  · intro hoccurs
    have hend := hoccurs.end_le hword
    omega
  · rcases Nat.lt_or_ge i n with hlt | hge
    · exact hscan.absent i hlt
    · exact positionFrom_eq_none h hword i ((min_le_left _ _).trans hge)

/-- The search finds the first occurrence. -/
theorem findFrom_of_first (hscan : ScannedTo word v n) (hword : word ≠ [])
    (hoccurs : OccursAt word v pos) (hfirst : ∀ i < pos, ¬OccursAt word v i) :
    findFrom word v n = some pos := by
  cases hfind : findFrom word v n with
  | none => exact absurd hoccurs (findFrom_eq_none hscan hfind hword pos)
  | some found =>
      obtain ⟨hthere, hbefore⟩ := findFrom_eq_some hscan hfind
      rcases Nat.lt_trichotomy found pos with hlt | heq | hgt
      · exact absurd hthere (hfirst found hlt)
      · rw [heq]
      · exact absurd hoccurs (hbefore pos hgt)

/-- What is found stays the first occurrence when bytes are appended. -/
theorem findFrom_append (hscan : ScannedTo word v n) (hword : word ≠ [])
    (h : findFrom word v n = some pos) (rest : Bytes) :
    findFrom word (v ++ rest) n = some pos := by
  have hle := findFrom_le h
  obtain ⟨hoccurs, hfirst⟩ := findFrom_eq_some hscan h
  refine findFrom_of_first (hscan.append rest) hword ((occursAt_append_right hle).mpr hoccurs) ?_
  intro i hi
  rw [occursAt_append_right (by omega)]
  exact hfirst i hi

end Search

section Start

def isAsciiUppercase (b : UInt8) : Bool := decide (65 ≤ b ∧ b ≤ 90)

/-- `u8::is_ascii_whitespace`: tab, line feed, form feed, carriage return and space. -/
def isAsciiWhitespace (b : UInt8) : Bool :=
  decide (b = 9 ∨ b = 10 ∨ b = 12 ∨ b = 13 ∨ b = 32)

def ascii (s : String) : Bytes := s.toList.map fun c ↦ UInt8.ofNat c.toNat

/-- A plausible start of a message, recognised as soon as its first bytes are there. -/
def looksLikeHttpStart (v : Bytes) : Bool :=
  if ascii "HTTP/" <+: v then true
  else match (v.take 17).findIdx? (· == 32) with
    | none => false
    | some methodEnd =>
        let method := v.take methodEnd
        let rest := v.drop (methodEnd + 1)
        if ¬(1 ≤ methodEnd ∧ methodEnd ≤ 16) then false
        else if ¬method.all fun b ↦ isAsciiUppercase b || b == 45 then false
        else match rest with
          | [] => false
          | first :: _ =>
              if method = ascii "CONNECT" then !isAsciiWhitespace first
              else decide (ascii "/" <+: rest ∨ ascii "*" <+: rest ∨ ascii "http://" <+: rest ∨
                ascii "https://" <+: rest)

/-- A message starts at the first byte or after a line feed. -/
def findPlausibleHttpStart (v : Bytes) : Option ℕ :=
  if looksLikeHttpStart v then some 0
  else (List.range v.length).find? (fun i ↦ v[i]? == some 10 && decide (i + 1 < v.length) &&
    looksLikeHttpStart (v.drop (i + 1))) |>.map (· + 1)

theorem findPlausibleHttpStart_le {v : Bytes} {pos : ℕ}
    (h : findPlausibleHttpStart v = some pos) : pos ≤ v.length := by
  unfold findPlausibleHttpStart at h
  split_ifs at h with hstart
  · exact Option.some.inj h ▸ Nat.zero_le _
  · obtain ⟨i, hi, rfl⟩ := Option.map_eq_some_iff.mp h
    have hline := List.find?_some hi
    simp only [Bool.and_eq_true, decide_eq_true_eq] at hline
    exact hline.1.2.le

end Start

section ChunkSize

def isContinuation (b : UInt8) : Bool := b &&& 0xc0 == 0x80

def charOf (n : ℕ) : Option Char := if n.isValidChar then some (Char.ofNat n) else none

/-- `str::from_utf8`: no overlong forms, no surrogates, nothing above U+10FFFF. -/
def utf8Chars : Bytes → Option (List Char)
  | [] => some []
  | b₀ :: rest =>
      if b₀ < 0x80 then (Char.ofNat b₀.toNat :: ·) <$> utf8Chars rest
      else match rest with
        | [] => none
        | b₁ :: rest =>
            if ¬isContinuation b₁ then none
            else if 0xc2 ≤ b₀ ∧ b₀ ≤ 0xdf then do
              let c ← charOf ((b₀.toNat - 0xc0) * 64 + (b₁.toNat - 0x80))
              (c :: ·) <$> utf8Chars rest
            else match rest with
              | [] => none
              | b₂ :: rest =>
                  if ¬isContinuation b₂ then none
                  else if 0xe0 ≤ b₀ ∧ b₀ ≤ 0xef then
                    let n := (b₀.toNat - 0xe0) * 4096 + (b₁.toNat - 0x80) * 64 + (b₂.toNat - 0x80)
                    if n < 0x800 then none
                    else do
                      let c ← charOf n
                      (c :: ·) <$> utf8Chars rest
                  else match rest with
                    | [] => none
                    | b₃ :: rest =>
                        if ¬isContinuation b₃ then none
                        else if 0xf0 ≤ b₀ ∧ b₀ ≤ 0xf4 then
                          let n := (b₀.toNat - 0xf0) * 262144 + (b₁.toNat - 0x80) * 4096 +
                            (b₂.toNat - 0x80) * 64 + (b₃.toNat - 0x80)
                          if n < 0x10000 then none
                          else do
                            let c ← charOf n
                            (c :: ·) <$> utf8Chars rest
                        else none

def hexDigit? (c : Char) : Option ℕ :=
  let n := c.toNat
  if 48 ≤ n ∧ n ≤ 57 then some (n - 48)
  else if 97 ≤ n ∧ n ≤ 102 then some (n - 87)
  else if 65 ≤ n ∧ n ≤ 70 then some (n - 55)
  else none

def hexDigits (s : List Char) : Option ℕ :=
  s.foldlM (fun n c ↦ (16 * n + ·) <$> hexDigit? c) 0

/-- `usize::from_str_radix` with radix 16: a plus sign may stand before the digits, and the
value fits. -/
def fromStrRadix16 (s : List Char) : Option ℕ :=
  let digits := match s with
    | '+' :: digits => digits
    | digits => digits
  if digits = [] then none
  else (hexDigits digits).filter fun n ↦ decide (n ≤ u64Max)

/-- The size in a chunk-size line without its end.  The source's limit is in bytes. -/
def chunkSize (line : Bytes) : Option ℕ := do
  let text ← utf8Chars line
  let s := trim (text.takeWhile (· != ';'))
  if s = [] ∨ 16 < (s.map Char.utf8Size).sum then none else fromStrRadix16 s

example : chunkSize (ascii " 1A;name=value") = some 26 := by decide +kernel

end ChunkSize

section Header

inductive Encoding where
  | identity
  | gzip
  | deflate
  deriving DecidableEq, Repr

structure ParsedHeader where
  request : Bool
  method : Option String := none
  host : Option String := none
  path : Option String := none
  status : Option ℕ := none
  userAgent : Option String := none
  contentType : Option String := none
  contentLength : Option ℕ := none
  hasTransferEncoding : Bool := false
  transferFinalChunked : Bool := false
  ambiguousFraming : Bool := false
  encoding : Encoding := .identity
  deriving DecidableEq, Repr

inductive RequestKind where
  | other
  | head
  | connect
  deriving DecidableEq, Repr

/-- Methods are compared without regard to the case of ASCII letters. -/
def RequestKind.fromMethod (method : Option String) : RequestKind :=
  match method.map String.toUpper with
  | some "HEAD" => .head
  | some "CONNECT" => .connect
  | _ => .other

end Header

end Bazalt.Http
