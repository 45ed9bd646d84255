import Bazalt.Http.Chunked
import Mathlib.Data.Nat.Digits.Defs

/-!
# Chunk-size lines

A chunk-size line is hexadecimal digits with an optional extension behind a semicolon.  The
decoder takes those lines, and a few more.
-/

namespace Bazalt.Http

open Lib

section Digits

def IsHex (s : List Char) : Prop := ∀ c ∈ s, (hexDigit? c).isSome

instance (s : List Char) : Decidable (IsHex s) :=
  List.decidableBAll _ s

/-- The value of hexadecimal digits, the first one being the highest. -/
def hexValue (s : List Char) : ℕ :=
  Nat.ofDigits 16 (s.reverse.map fun c ↦ (hexDigit? c).getD 0)

variable {s : List Char} {c : Char} {n : ℕ}

theorem hexDigit?_spec (h : hexDigit? c = some n) : n < 16 ∧ c.toNat < 128 ∧ c ≠ '+' := by
  unfold hexDigit? at h
  dsimp only at h
  have hplus : c = '+' → c.toNat = 43 := fun hc ↦ hc ▸ rfl
  split_ifs at h
  all_goals
    obtain rfl := Option.some.inj h
    refine ⟨by omega, by omega, fun hc ↦ ?_⟩
    have := hplus hc
    omega

theorem hexValue_cons (c : Char) (s : List Char) :
    hexValue (c :: s) = hexValue s + 16 ^ s.length * (hexDigit? c).getD 0 := by
  simp [hexValue, Nat.ofDigits_append]

theorem hexValue_lt (h : IsHex s) : hexValue s < 16 ^ s.length := by
  have hlt : hexValue s < 16 ^ (s.reverse.map fun c ↦ (hexDigit? c).getD 0).length := by
    refine Nat.ofDigits_lt_base_pow_length (by omega) fun x hx ↦ ?_
    obtain ⟨c, hc, rfl⟩ := List.mem_map.mp hx
    obtain ⟨m, hm⟩ := Option.isSome_iff_exists.mp (h c (List.mem_reverse.mp hc))
    rw [hm]
    exact (hexDigit?_spec hm).1
  rwa [List.length_map, List.length_reverse] at hlt

theorem foldlM_hexDigit (acc : ℕ) : s.foldlM (fun n c ↦ (16 * n + ·) <$> hexDigit? c) acc =
    if IsHex s then some (acc * 16 ^ s.length + hexValue s) else none := by
  induction s generalizing acc with
  | nil => simp [IsHex, hexValue]
  | cons c s ih =>
      rw [List.foldlM_cons]
      cases hc : hexDigit? c with
      | none =>
          have hnot : ¬IsHex (c :: s) := fun h ↦ by simpa [hc] using h c List.mem_cons_self
          rw [if_neg hnot]
          rfl
      | some v =>
          have hiff : IsHex (c :: s) ↔ IsHex s := by simp [IsHex, hc]
          change s.foldlM (fun n c ↦ (16 * n + ·) <$> hexDigit? c) (16 * acc + v) = _
          rw [ih]
          simp only [hiff, hexValue_cons, hc, Option.getD_some, List.length_cons, pow_succ]
          congr 2
          ring

theorem hexDigits_eq : hexDigits s = if IsHex s then some (hexValue s) else none := by
  rw [hexDigits, foldlM_hexDigit, Nat.zero_mul, Nat.zero_add]

/-- Sixteen digits fit into 64 bits. -/
theorem hexValue_le (h : IsHex s) (hlen : s.length ≤ 16) : hexValue s ≤ u64Max := by
  have hlt := (hexValue_lt h).trans_le (Nat.pow_le_pow_right (by omega) hlen)
  have hpow : (16 : ℕ) ^ 16 = u64Max + 1 := rfl
  omega

theorem utf8Size_of_isHex (h : IsHex s) : (s.map Char.utf8Size).sum = s.length := by
  induction s with
  | nil => rfl
  | cons c s ih =>
      obtain ⟨n, hn⟩ := Option.isSome_iff_exists.mp (h c List.mem_cons_self)
      have hsmall := (hexDigit?_spec hn).2.1
      have hone : c.utf8Size = 1 := by
        rw [Char.utf8Size, if_pos]
        rw [UInt32.le_iff_toNat_le]
        exact Nat.lt_succ_iff.mp hsmall
      rw [List.map_cons, List.sum_cons, hone, ih fun c' hc' ↦ h c' (List.mem_cons_of_mem c hc'),
        List.length_cons, Nat.add_comm]

end Digits

section SizeLine

/-- The part of a chunk-size line before the first semicolon, without the space around it. -/
def sizeText (line : Bytes) : Option (List Char) :=
  (utf8Chars line).map fun text ↦ trim (text.takeWhile (· != ';'))

/-- The grammar of chunk-size lines: one to sixteen digits, whose value is the size. -/
def SizeLine (line : Bytes) (n : ℕ) : Prop :=
  ∃ s, sizeText line = some s ∧ s ≠ [] ∧ s.length ≤ 16 ∧ IsHex s ∧ n = hexValue s

/-- A plus sign stands before the digits. -/
def SignedLine (line : Bytes) : Prop :=
  ∃ s, sizeText line = some ('+' :: s) ∧ s ≠ [] ∧ s.length ≤ 15 ∧ IsHex s

variable {line : Bytes} {n : ℕ}

theorem not_isHex_plus (s : List Char) : ¬IsHex ('+' :: s) := fun h ↦ by
  obtain ⟨n, hn⟩ := Option.isSome_iff_exists.mp (h '+' List.mem_cons_self)
  exact (hexDigit?_spec hn).2.2 rfl

theorem fromStrRadix16_unsigned {s : List Char} (hne : s ≠ []) (hplus : ∀ t, s ≠ '+' :: t) :
    fromStrRadix16 s = (hexDigits s).filter fun n ↦ decide (n ≤ u64Max) := by
  unfold fromStrRadix16
  dsimp only
  split
  next digits => exact absurd rfl (hplus digits)
  next => exact if_neg hne

theorem fromStrRadix16_of_isHex {s : List Char} (hne : s ≠ []) (hlen : s.length ≤ 16)
    (h : IsHex s) : fromStrRadix16 s = some (hexValue s) := by
  have hplus : ∀ t, s ≠ '+' :: t := fun t ht ↦ not_isHex_plus t (ht ▸ h)
  rw [fromStrRadix16_unsigned hne hplus, hexDigits_eq, if_pos h, Option.filter_some,
    if_pos (by simpa using hexValue_le h hlen)]

theorem fromStrRadix16_plus (s : List Char) : fromStrRadix16 ('+' :: s) =
    if s = [] then none else (hexDigits s).filter fun n ↦ decide (n ≤ u64Max) := rfl

theorem chunkSize_eq (line : Bytes) : chunkSize line = (sizeText line).bind fun s ↦
    if s = [] ∨ 16 < (s.map Char.utf8Size).sum then none else fromStrRadix16 s := by
  rw [chunkSize, sizeText]
  cases utf8Chars line <;> rfl

theorem chunkSize_of_sizeLine (h : SizeLine line n) : chunkSize line = some n := by
  obtain ⟨s, hs, hne, hlen, hhex, rfl⟩ := h
  have hbytes := utf8Size_of_isHex hhex
  rw [chunkSize_eq, hs, Option.bind_some, if_neg (by rw [hbytes]; exact not_or.mpr ⟨hne, by omega⟩),
    fromStrRadix16_of_isHex hne hlen hhex]

theorem utf8Size_plus (s : List Char) :
    (('+' :: s).map Char.utf8Size).sum = 1 + (s.map Char.utf8Size).sum := rfl

/-- What the decoder takes for a size is a line of the grammar, or one with a plus sign. -/
theorem sizeLine_or_signedLine (h : chunkSize line = some n) :
    SizeLine line n ∨ SignedLine line := by
  rw [chunkSize_eq] at h
  obtain ⟨s, hs, hsize⟩ := Option.bind_eq_some_iff.mp h
  split_ifs at hsize with hbad
  obtain ⟨hne, hbytes⟩ := not_or.mp hbad
  by_cases hplus : ∃ digits, s = '+' :: digits
  · obtain ⟨digits, rfl⟩ := hplus
    rw [fromStrRadix16_plus] at hsize
    split_ifs at hsize with hnone
    rw [hexDigits_eq] at hsize
    split_ifs at hsize with hhex
    · rw [utf8Size_plus, utf8Size_of_isHex hhex] at hbytes
      exact .inr ⟨digits, hs, hnone, by omega, hhex⟩
    · cases hsize
  · have hunsigned : ∀ t, s ≠ '+' :: t := fun t ht ↦ hplus ⟨t, ht⟩
    rw [fromStrRadix16_unsigned hne hunsigned, hexDigits_eq] at hsize
    split_ifs at hsize with hhex
    · rw [utf8Size_of_isHex hhex] at hbytes
      obtain ⟨hvalue, -⟩ := Option.filter_eq_some_iff.mp hsize
      exact .inl ⟨s, hs, hne, by omega, hhex, (Option.some.inj hvalue).symm⟩
    · cases hsize

theorem chunkSize_of_signedLine (h : SignedLine line) : ∃ n, chunkSize line = some n := by
  obtain ⟨s, hs, hne, hlen, hhex⟩ := h
  refine ⟨hexValue s, ?_⟩
  have hbytes : (('+' :: s).map Char.utf8Size).sum = 1 + s.length := by
    rw [utf8Size_plus, utf8Size_of_isHex hhex]
  rw [chunkSize_eq, hs, Option.bind_some, if_neg, fromStrRadix16_plus, if_neg hne, hexDigits_eq,
    if_pos hhex, Option.filter_some, if_pos]
  · simpa using hexValue_le hhex (by omega)
  · rw [hbytes]
    exact not_or.mpr ⟨List.cons_ne_nil _ _, by omega⟩

/-- In `line` followed by `word`, the word stands at the end and nowhere before. -/
def EndsFirst (word line : Bytes) : Prop := ∀ i < line.length, ¬OccursAt word (line ++ word) i

instance (word line : Bytes) : Decidable (EndsFirst word line) :=
  inferInstanceAs (Decidable (∀ i < line.length, _))

theorem EndsFirst.not_occursAt {word : Bytes} (h : EndsFirst word line) (rest : Bytes) {i : ℕ}
    (hi : i < line.length) : ¬OccursAt word (line ++ word ++ rest) i := by
  rw [occursAt_append_right (by rw [List.length_append]; omega)]
  exact h i hi

theorem EndsFirst.find {word : Bytes} (h : EndsFirst word line) (hword : word ≠ [])
    {rest : Bytes} {start : ℕ} (hscan : ScannedTo word (line ++ word ++ rest) start) :
    findFrom word (line ++ word ++ rest) start = some line.length := by
  have hend : OccursAt word (line ++ word ++ rest) line.length := by
    rw [OccursAt, List.append_assoc, List.drop_left]
    exact List.prefix_append _ _
  exact findFrom_of_first hscan hword hend fun i hi ↦ h.not_occursAt rest hi

/-- Where the decoder goes on after a size. -/
def ChunkState.ofSize : ℕ → ChunkState
  | 0 => .trailers
  | n + 1 => .data (n + 1)

theorem ofSize_injective : Function.Injective ChunkState.ofSize := by
  intro m n h
  cases m <;> cases n <;> simp_all [ChunkState.ofSize]

/-- A round of the decoder takes a size line and goes on with the size `n`. -/
def TakesSize (t : Turn ChunkPass) (rest : Bytes) (n : ℕ) : Prop :=
  ∃ p, t = .again p ∧ p.buf = rest ∧ p.decoder.state = .ofSize n

/-- In state `Size`, with the line and its end in front of the buffer, the decoder takes the
line exactly if the grammar has it, with the size that the grammar says. -/
def FollowsGrammar (line : Bytes) : Prop :=
  ∀ (p : ChunkPass) (rest : Bytes) (initialLen maxLine maxCollect : ℕ),
    p.decoder.state = .size → p.buf = line ++ crlf ++ rest →
    ScannedTo crlf p.buf p.decoder.scanFrom →
    ∀ n, TakesSize (p.turn initialLen maxLine maxCollect) rest n ↔ SizeLine line n

theorem takesSize_iff {p : ChunkPass} {rest : Bytes} {initialLen maxLine maxCollect : ℕ}
    (hline : EndsFirst crlf line) (hstate : p.decoder.state = .size)
    (hbuf : p.buf = line ++ crlf ++ rest) (hscan : ScannedTo crlf p.buf p.decoder.scanFrom) :
    TakesSize (p.turn initialLen maxLine maxCollect) rest n ↔ chunkSize line = some n := by
  have hfind : findCrlfFrom p.buf p.decoder.scanFrom = some line.length := by
    rw [hbuf] at hscan ⊢
    exact hline.find (by decide) hscan
  have htake : p.buf.take line.length = line := by rw [hbuf, List.append_assoc, List.take_left]
  have hdrop : p.buf.drop (line.length + 2) = rest := by
    rw [hbuf]
    exact List.drop_left' (by simp [crlf])
  rw [ChunkPass.turn, hstate, ChunkPass.turnSize, hfind]
  simp only [htake, hdrop]
  constructor
  · rintro ⟨p', hp', -, hn⟩
    split at hp'
    · cases hp'
    · obtain rfl := Turn.again.inj hp'
      have hzero : ChunkState.ofSize 0 = .ofSize n := hn
      rw [‹chunkSize line = some 0›, ofSize_injective hzero]
    next m hm hsize =>
      obtain ⟨k, rfl⟩ := Nat.exists_eq_succ_of_ne_zero hm
      obtain rfl := Turn.again.inj hp'
      have hsucc : ChunkState.ofSize (k + 1) = .ofSize n := hn
      rw [hsize, ← ofSize_injective hsucc]
  · intro hsize
    rw [hsize]
    cases n with
    | zero => exact ⟨_, rfl, rfl, rfl⟩
    | succ n => exact ⟨_, rfl, rfl, rfl⟩

theorem not_followsGrammar_of_signed (hline : EndsFirst crlf line) (hsigned : SignedLine line) :
    ¬FollowsGrammar line := by
  intro hall
  obtain ⟨n, hn⟩ := chunkSize_of_signedLine hsigned
  have hiff := hall { decoder := {}, buf := line ++ crlf } [] 0 0 0 rfl
    (List.append_nil _).symm (scannedTo_zero _ _) n
  rw [takesSize_iff hline rfl (List.append_nil _).symm (scannedTo_zero _ _)] at hiff
  obtain ⟨s, hs, -, -, hhex, -⟩ := hiff.mp hn
  obtain ⟨t, ht, -⟩ := hsigned
  obtain rfl := Option.some.inj (hs.symm.trans ht)
  exact not_isHex_plus t hhex

/-- The decoder follows the grammar on every line but those with a plus sign before the
digits, which `from_str_radix` lets pass. -/
theorem followsGrammar_iff_not_signed (line : Bytes) (hline : EndsFirst crlf line) :
    FollowsGrammar line ↔ ¬SignedLine line := by
  constructor
  · exact fun hall hsigned ↦ not_followsGrammar_of_signed hline hsigned hall
  · intro hunsigned p rest initialLen maxLine maxCollect hstate hbuf hscan n
    rw [takesSize_iff hline hstate hbuf hscan]
    exact ⟨fun hsize ↦ (sizeLine_or_signedLine hsize).resolve_right hunsigned,
      chunkSize_of_sizeLine⟩

theorem followsGrammar_extension : EndsFirst crlf (ascii "1A;x=y") ∧
    ¬SignedLine (ascii "1A;x=y") ∧ FollowsGrammar (ascii "1A;x=y") := by
  have hline : EndsFirst crlf (ascii "1A;x=y") := by decide +kernel
  have hunsigned : ¬SignedLine (ascii "1A;x=y") := by
    rintro ⟨s, hs, -⟩
    rw [show sizeText (ascii "1A;x=y") = some ['1', 'A'] by decide +kernel] at hs
    cases hs
  exact ⟨hline, hunsigned, (followsGrammar_iff_not_signed _ hline).mpr hunsigned⟩

theorem not_followsGrammar_plus : ¬FollowsGrammar (ascii "+5") :=
  not_followsGrammar_of_signed (by decide +kernel)
    ⟨['5'], by decide +kernel, by decide, by decide, by decide +kernel⟩

end SizeLine

end Bazalt.Http
