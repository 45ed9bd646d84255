import Bazalt.Http.Parser
import Bazalt.Storage.Codec
import Mathlib.Data.List.TakeWhile

/-!
# The header fields that frame a message

`Content-Length` and `Transfer-Encoding` are lists: their lines can be repeated, and a line
can hold several members with commas between them.  Both are read member by member, with
what was read before carried from one line to the next, so it does not matter how the
members are laid out in lines.

The parser of the header block is a library and a parameter.
-/

namespace Bazalt.Http

open Lib

inductive HeaderError where
  | httparse
  | partialResponse
  | partialRequest
  | invalidRequestLine
  | contentLengthEncoding
  | contentLengthValue
  | contentLengthOverflow
  | contentLengthConflict
  | transferEncoding
  | emptyCoding
  | chunkedNotFinal
  deriving DecidableEq, Repr

/-- `httparse::Header`. -/
structure Header where
  name : List Char
  value : Bytes
  deriving DecidableEq, Repr

/-- The library.  The first component tells whether the block was partial. -/
structure Httparse where
  response : Bytes → Option (Bool × Option ℕ × List Header)
  request : Bytes → Option (Bool × Option String × Option String × List Header)

def eqIgnoreAsciiCase (s t : List Char) : Bool := decide (s.map Char.toLower = t.map Char.toLower)

/-- The lines of a field. -/
def fieldLines (name : String) (headers : List Header) : List Header :=
  headers.filter fun h ↦ eqIgnoreAsciiCase h.name name.toList

/-- A line is read member by member; `e` says that it is no text. -/
def fieldLine {σ : Type} (e : HeaderError) (member : σ → List Char → Except HeaderError σ) (s : σ)
    (h : Header) : Except HeaderError σ :=
  match utf8Chars h.value with
  | none => .error e
  | some text => (text.splitOn ',').foldlM member s

/-! ## Content-Length -/

def isAsciiDigit (c : Char) : Bool := decide (48 ≤ c.toNat ∧ c.toNat ≤ 57)

def decimal (s : List Char) : ℕ := s.foldl (fun n c ↦ 10 * n + (c.toNat - 48)) 0

/-- `str::parse::<u64>` for digits. -/
def parseU64 (s : List Char) : Option ℕ := some (decimal s) |>.filter (decide <| · ≤ u64Max)

/-- The body of the loop over the members of a line. -/
def contentLengthToken (value : Option ℕ) (raw : List Char) : Except HeaderError (Option ℕ) :=
  let token := trim raw
  if token.isEmpty || !token.all isAsciiDigit then .error .contentLengthValue
  else match parseU64 token with
    | none => .error .contentLengthOverflow
    | some parsed =>
        match value with
        | some existing =>
            if existing ≠ parsed then .error .contentLengthConflict else .ok (some existing)
        | none => .ok (some parsed)

def contentLengthLine : Option ℕ → Header → Except HeaderError (Option ℕ) :=
  fieldLine .contentLengthEncoding contentLengthToken

def parseContentLength (headers : List Header) : Except HeaderError (Option ℕ) :=
  (fieldLines "content-length" headers).foldlM contentLengthLine none

/-! ## Transfer-Encoding -/

/-- A member without its parameters. -/
def coding (raw : List Char) : List Char := trim (raw.takeWhile (· != ';'))

def isChunked (raw : List Char) : Bool := eqIgnoreAsciiCase (coding raw) "chunked".toList

/-- The body of the loop over the members of a line: whether there was a member, and whether
the last one was chunked. -/
def transferEncodingToken (s : Bool × Bool) (raw : List Char) : Except HeaderError (Bool × Bool) :=
  if (coding raw).isEmpty then .error .emptyCoding
  else if s.2 then .error .chunkedNotFinal
  else .ok (true, isChunked raw)

def transferEncodingLine : Bool × Bool → Header → Except HeaderError (Bool × Bool) :=
  fieldLine .transferEncoding transferEncodingToken

def transferEncodingFraming (headers : List Header) : Except HeaderError (Bool × Bool) :=
  (fieldLines "transfer-encoding" headers).foldlM transferEncodingLine (false, false)

/-! ## The header block -/

def headerBytes (headers : List Header) (name : String) : Option Bytes :=
  (fieldLines name headers).head?.map Header.value

def headerText (headers : List Header) (name : String) : Option String :=
  (headerBytes headers name).map fun v ↦ String.ofList (trim (Storage.fromUtf8Lossy v).toList)

def asciiContainsIgnoreCase (haystack : Bytes) (needle : String) : Bool :=
  (haystack.tails.map fun t ↦ t.take needle.length).any fun window ↦
    decide (window.map (fun b ↦ (Char.ofNat b.toNat).toLower) = needle.toList)

/-- What the first line says, and the fields. -/
structure MessageHead where
  request : Bool
  method : Option String
  path : Option String
  status : Option ℕ
  headers : List Header
  deriving DecidableEq, Repr

def messageHead (lib : Httparse) (bytes : Bytes) : Except HeaderError MessageHead :=
  if (ascii "HTTP/").isPrefixOf bytes then
    match lib.response bytes with
    | none => .error .httparse
    | some (unfinished, code, headers) =>
        if unfinished then .error .partialResponse else .ok ⟨false, none, none, code, headers⟩
  else
    match lib.request bytes with
    | none => .error .httparse
    | some (unfinished, method, path, headers) =>
        if unfinished then .error .partialRequest
        else if method.isNone || path.isNone then .error .invalidRequestLine
        else .ok ⟨true, method, path, none, headers⟩

def contentEncoding (headers : List Header) : Encoding :=
  match headerBytes headers "content-encoding" with
  | some v =>
      if asciiContainsIgnoreCase v "gzip" then .gzip
      else if asciiContainsIgnoreCase v "deflate" then .deflate
      else .identity
  | none => .identity

def parseHeader (lib : Httparse) (bytes : Bytes) : Except HeaderError ParsedHeader := do
  let head ← messageHead lib bytes
  let contentLength ← parseContentLength head.headers
  let (hasTransferEncoding, transferFinalChunked) ← transferEncodingFraming head.headers
  return {
    request := head.request
    method := head.method
    host := headerText head.headers "host"
    path := head.path
    status := head.status
    userAgent := headerText head.headers "user-agent"
    contentType := headerText head.headers "content-type"
    contentLength := if hasTransferEncoding then none else contentLength
    hasTransferEncoding := hasTransferEncoding
    transferFinalChunked := transferFinalChunked
    ambiguousFraming := hasTransferEncoding && contentLength.isSome
    encoding := contentEncoding head.headers }

/-! ## Lines and commas -/

theorem isContinuation_of_lt {c : UInt8} (hc : c < 0x80) : isContinuation c = false := by
  have hall : ∀ n : Fin 256, n.val < 128 → isContinuation (UInt8.ofNat n) = false := by
    decide +kernel
  have hlt : c.toNat < 128 := UInt8.lt_iff_toNat_lt.mp hc
  have h := hall ⟨c.toNat, by omega⟩ hlt
  rwa [UInt8.ofNat_toNat] at h

theorem utf8Chars_append_cons {c : UInt8} (hc : c < 0x80) (a b : Bytes) :
    utf8Chars (a ++ c :: b) =
      (utf8Chars a).bind fun x ↦ (utf8Chars (c :: b)).map fun y ↦ x ++ y := by
  have hcont := isContinuation_of_lt hc
  fun_induction utf8Chars a with
  | case1 => simp
  | case2 b₀ rest h ih =>
      rw [List.cons_append, utf8Chars.eq_def]
      simp only [h, ih, ↓reduceIte]
      cases utf8Chars rest <;> cases utf8Chars (c :: b) <;> rfl
  | case3 b₀ h =>
      rw [List.cons_append, utf8Chars.eq_def]
      simp [h, hcont]
  | case4 b₀ h b₁ rest h₁ =>
      rw [List.cons_append, List.cons_append, utf8Chars.eq_def]
      simp [h, h₁]
  | case5 b₀ h b₁ rest h₁ h₂ ih =>
      rw [List.cons_append, List.cons_append, utf8Chars.eq_def]
      simp only [h, h₁, h₂, ih, ↓reduceIte]
      cases charOf ((b₀.toNat - 0xc0) * 64 + (b₁.toNat - 0x80)) <;> cases utf8Chars rest <;>
        cases utf8Chars (c :: b) <;> rfl
  | case6 b₀ h b₁ h₁ h₂ =>
      rw [List.cons_append, List.cons_append, utf8Chars.eq_def]
      simp only [h, h₁, h₂, ↓reduceIte]
      simp [hcont]
  | case7 b₀ h b₁ h₁ h₂ b₂ rest h₃ =>
      rw [List.cons_append, List.cons_append, List.cons_append, utf8Chars.eq_def]
      simp only [h, h₁, h₂, h₃, ↓reduceIte]
      rfl
  | case8 b₀ h b₁ h₁ h₂ b₂ rest h₃ h₄ n h₅ =>
      rw [List.cons_append, List.cons_append, List.cons_append, utf8Chars.eq_def]
      simp only [h, h₁, h₂, h₃, h₄, ↓reduceIte]
      rw [if_pos h₅]
      rfl
  | case9 b₀ h b₁ h₁ h₂ b₂ rest h₃ h₄ n h₅ ih =>
      rw [List.cons_append, List.cons_append, List.cons_append, utf8Chars.eq_def]
      have hn : (b₀.toNat - 0xe0) * 4096 + (b₁.toNat - 0x80) * 64 + (b₂.toNat - 0x80) = n := rfl
      simp only [h, h₁, h₂, h₃, h₄, ih, hn, h₅, ↓reduceIte]
      cases charOf n <;> cases utf8Chars rest <;> cases utf8Chars (c :: b) <;> rfl
  | case10 b₀ h b₁ h₁ h₂ b₂ h₃ h₄ =>
      rw [List.cons_append, List.cons_append, List.cons_append, utf8Chars.eq_def]
      simp only [h, h₁, h₂, h₃, h₄, ↓reduceIte]
      simp [hcont]
  | case11 b₀ h b₁ h₁ h₂ b₂ h₃ h₄ b₃ rest h₅ =>
      rw [List.cons_append, List.cons_append, List.cons_append, List.cons_append, utf8Chars.eq_def]
      simp only [h, h₁, h₂, h₃, h₄, h₅, ↓reduceIte]
      rfl
  | case12 b₀ h b₁ h₁ h₂ b₂ h₃ h₄ b₃ rest h₅ h₆ n h₇ =>
      rw [List.cons_append, List.cons_append, List.cons_append, List.cons_append, utf8Chars.eq_def]
      simp only [h, h₁, h₂, h₃, h₄, h₅, h₆, ↓reduceIte]
      rw [if_pos h₇]
      rfl
  | case13 b₀ h b₁ h₁ h₂ b₂ h₃ h₄ b₃ rest h₅ h₆ n h₇ ih =>
      rw [List.cons_append, List.cons_append, List.cons_append, List.cons_append, utf8Chars.eq_def]
      have hn : (b₀.toNat - 0xf0) * 262144 + (b₁.toNat - 0x80) * 4096 + (b₂.toNat - 0x80) * 64 +
        (b₃.toNat - 0x80) = n := rfl
      simp only [h, h₁, h₂, h₃, h₄, h₅, h₆, ih, hn, h₇, ↓reduceIte]
      cases charOf n <;> cases utf8Chars rest <;> cases utf8Chars (c :: b) <;> rfl
  | case14 b₀ h b₁ h₁ h₂ b₂ h₃ h₄ b₃ rest h₅ h₆ =>
      rw [List.cons_append, List.cons_append, List.cons_append, List.cons_append, utf8Chars.eq_def]
      simp only [h, h₁, h₂, h₃, h₄, h₅, h₆, ↓reduceIte]
      rfl

theorem utf8Chars_append_comma (a b : Bytes) :
    utf8Chars (a ++ 44 :: b) =
      (utf8Chars a).bind fun x ↦ (utf8Chars b).map fun y ↦ x ++ ',' :: y := by
  have hcomma : utf8Chars (44 :: b) = (utf8Chars b).map (',' :: ·) := by
    rw [utf8Chars.eq_def]
    rfl
  rw [utf8Chars_append_cons (by decide), hcomma]
  cases utf8Chars a <;> cases utf8Chars b <;> rfl

/-! ## Whitespace around members -/

/-- What a member stands for does not depend on the whitespace around it. -/
theorem coding_trim (raw : List Char) : coding (trim raw) = coding raw := by
  obtain ⟨ws, ws', hs, hws, hws'⟩ := exists_trim raw
  have hkeep : ∀ c, isWhitespace c → (c != ';') = true := by
    intro c hc
    rw [bne_iff_ne]
    rintro rfl
    exact absurd hc (by decide)
  have hraw : coding raw = trim ((ws ++ (trim raw ++ ws')).takeWhile (· != ';')) := by
    rw [coding, ← List.append_assoc, ← hs]
  rw [hraw, List.takeWhile_append_of_pos fun c hc ↦ hkeep c (hws c hc), List.takeWhile_append,
    coding]
  split_ifs with hwhole
  · have hall : ws'.takeWhile (· != ';') = ws' :=
      List.takeWhile_eq_self_iff.mpr fun c hc ↦ hkeep c (hws' c hc)
    rw [hall, ← List.append_assoc, trim_append hws hws',
      (List.takeWhile_prefix _).eq_of_length hwhole]
  · have hnone : ∀ c ∈ ([] : List Char), isWhitespace c := by simp
    have hsame := trim_append hws hnone ((trim raw).takeWhile (· != ';'))
    rwa [List.append_nil, eq_comm] at hsame

theorem contentLengthToken_trim (value : Option ℕ) (raw : List Char) :
    contentLengthToken value (trim raw) = contentLengthToken value raw := by
  rw [contentLengthToken, contentLengthToken, trim_trim]

theorem transferEncodingToken_trim (s : Bool × Bool) (raw : List Char) :
    transferEncodingToken s (trim raw) = transferEncodingToken s raw := by
  rw [transferEncodingToken, transferEncodingToken, isChunked, isChunked, coding_trim]

/-! ## The members of a field -/

def fieldValues (name : String) (headers : List Header) : List Bytes :=
  (fieldLines name headers).map Header.value

/-- The members of a line without the whitespace around them, if the line is text. -/
def lineMembers (value : Bytes) : Option (List (List Char)) :=
  (utf8Chars value).map fun text ↦ (text.splitOn ',').map trim

/-- The members of some lines, if all lines are text. -/
def members : List Bytes → Option (List (List Char))
  | [] => some []
  | value :: values => (lineMembers value).bind fun ms ↦ (members values).map (ms ++ ·)

theorem members_append (values values' : List Bytes) :
    members (values ++ values') =
      (members values).bind fun ms ↦ (members values').map (ms ++ ·) := by
  induction values with
  | nil => simp [members]
  | cons value values ih =>
      rw [List.cons_append, members, members, ih]
      cases lineMembers value <;> cases members values <;> cases members values' <;> simp

/-- A comma joins the members of two lines. -/
theorem lineMembers_append_comma (a b : Bytes) :
    lineMembers (a ++ 44 :: b) =
      (lineMembers a).bind fun ms ↦ (lineMembers b).map (ms ++ ·) := by
  rw [lineMembers, lineMembers, lineMembers, utf8Chars_append_comma]
  cases utf8Chars a with
  | none => rfl
  | some x =>
      cases utf8Chars b with
      | none => rfl
      | some y => simp [List.splitOn_append_cons_self]

/-- Lines with commas between them have the members of the lines. -/
theorem lineMembers_intercalate {values : List Bytes} (h : values ≠ []) :
    lineMembers ([44].intercalate values) = members values := by
  induction values with
  | nil => exact absurd rfl h
  | cons value values ih =>
      cases values with
      | nil =>
          rw [List.intercalate_singleton, members, members]
          cases lineMembers value <;> simp
      | cons value' values =>
          have hjoin : [44].intercalate (value :: value' :: values) =
              value ++ 44 :: [44].intercalate (value' :: values) := by
            rw [List.intercalate_cons_cons, List.append_assoc, List.singleton_append]
          rw [hjoin, lineMembers_append_comma, ih (List.cons_ne_nil _ _), ← members]

theorem members_map_intercalate {groups : List (List Bytes)} (h : ∀ g ∈ groups, g ≠ []) :
    members (groups.map fun g ↦ [44].intercalate g) = members groups.flatten := by
  induction groups with
  | nil => rfl
  | cons g groups ih =>
      rw [List.map_cons, members, lineMembers_intercalate (h g List.mem_cons_self),
        ih fun g' hg' ↦ h g' (List.mem_cons_of_mem _ hg'), List.flatten_cons, members_append]

theorem members_isSome {values : List Bytes} :
    (members values).isSome ↔ ∀ value ∈ values, (utf8Chars value).isSome := by
  induction values with
  | nil => simp [members]
  | cons value values ih =>
      rw [List.forall_mem_cons, ← ih, members, lineMembers]
      cases utf8Chars value <;> cases members values <;> simp

/-! ## Reading members -/

section

variable {σ : Type} {e : HeaderError} {member : σ → List Char → Except HeaderError σ}

theorem foldlM_trim (htrim : ∀ s raw, member s (trim raw) = member s raw) (raws : List (List Char)) :
    ∀ s, (raws.map trim).foldlM member s = raws.foldlM member s := by
  induction raws with
  | nil => exact fun s ↦ rfl
  | cons raw raws ih =>
      intro s
      rw [List.map_cons, List.foldlM_cons, List.foldlM_cons, htrim]
      exact bind_congr ih

/-- Lines that are text are read as their members one after the other. -/
theorem foldlM_fieldLine (htrim : ∀ s raw, member s (trim raw) = member s raw) (lines : List Header) :
    ∀ (s : σ) (ms : List (List Char)), members (lines.map Header.value) = some ms →
      lines.foldlM (fieldLine e member) s = ms.foldlM member s := by
  induction lines with
  | nil =>
      intro s ms hms
      obtain rfl := Option.some.inj hms
      rfl
  | cons h lines ih =>
      intro s ms hms
      rw [List.map_cons, members, Option.bind_eq_some_iff] at hms
      obtain ⟨first, hfirst, hmore⟩ := hms
      obtain ⟨rest, hrest, rfl⟩ := Option.map_eq_some_iff.mp hmore
      obtain ⟨text, htext, rfl⟩ := Option.map_eq_some_iff.mp hfirst
      rw [List.foldlM_cons, List.foldlM_append, fieldLine, htext, foldlM_trim htrim]
      exact bind_congr fun s' ↦ ih s' rest hrest

/-- Lines are only accepted if they are text. -/
theorem members_of_foldlM_fieldLine (lines : List Header) :
    ∀ s r, lines.foldlM (fieldLine e member) s = .ok r →
      ∃ ms, members (lines.map Header.value) = some ms := by
  induction lines with
  | nil => exact fun _ _ _ ↦ ⟨[], rfl⟩
  | cons h lines ih =>
      intro s r hr
      rw [List.foldlM_cons, fieldLine] at hr
      cases htext : utf8Chars h.value with
      | none =>
          rw [htext] at hr
          cases hr
      | some text =>
          rw [htext] at hr
          cases hline : (text.splitOn ',').foldlM member s with
          | error e' =>
              dsimp only at hr
              rw [hline] at hr
              cases hr
          | ok s' =>
              dsimp only at hr
              rw [hline] at hr
              obtain ⟨rest, hrest⟩ := ih s' r hr
              refine ⟨(text.splitOn ',').map trim ++ rest, ?_⟩
              rw [List.map_cons, members, hrest, lineMembers, htext]
              rfl

theorem foldlM_fieldLine_eq_ok_iff (htrim : ∀ s raw, member s (trim raw) = member s raw)
    {lines : List Header} {s r : σ} :
    lines.foldlM (fieldLine e member) s = .ok r ↔
      ∃ ms, members (lines.map Header.value) = some ms ∧ ms.foldlM member s = .ok r := by
  refine ⟨fun h ↦ ?_, fun ⟨ms, hms, h⟩ ↦ ?_⟩
  · obtain ⟨ms, hms⟩ := members_of_foldlM_fieldLine lines s r h
    exact ⟨ms, hms, by rwa [foldlM_fieldLine htrim lines s ms hms] at h⟩
  · rwa [foldlM_fieldLine htrim lines s ms hms]

end

/-- A member that stands for the number `v`. -/
structure Denotes (v : ℕ) (t : List Char) : Prop where
  nonempty : t ≠ []
  digits : ∀ c ∈ t, isAsciiDigit c
  value : decimal t = v
  fits : v < 2 ^ 64

/-- A member is accepted if it stands for the number that was read before. -/
theorem contentLengthToken_eq_ok_iff {value : Option ℕ} {t : List Char} {r : Option ℕ} :
    contentLengthToken value t = .ok r ↔
      ∃ v, Denotes v (trim t) ∧ r = some v ∧ ∀ w ∈ value, w = v := by
  have hmax : u64Max = 2 ^ 64 - 1 := rfl
  rw [contentLengthToken]
  by_cases hdigits : ((trim t).isEmpty || !(trim t).all isAsciiDigit) = true
  · rw [if_pos hdigits]
    refine ⟨fun h ↦ (by cases h), fun ⟨v, hv, _⟩ ↦ ?_⟩
    have hne := hv.nonempty
    have hall := List.all_eq_true.mpr hv.digits
    simp [hne, hall] at hdigits
  · rw [if_neg hdigits]
    simp only [Bool.or_eq_true, List.isEmpty_iff, Bool.not_eq_true', not_or,
      Bool.not_eq_false] at hdigits
    obtain ⟨hne, hall⟩ := hdigits
    by_cases hfits : decimal (trim t) ≤ u64Max
    · have hparse : parseU64 (trim t) = some (decimal (trim t)) := by
        simp [parseU64, hfits]
      have hdenotes : Denotes (decimal (trim t)) (trim t) :=
        ⟨hne, List.all_eq_true.mp hall, rfl, by omega⟩
      rw [hparse]
      dsimp only
      cases value with
      | none =>
          refine ⟨fun h ↦ ⟨_, hdenotes, (Except.ok.inj h).symm, by simp⟩, fun ⟨v, hv, hr, _⟩ ↦ ?_⟩
          rw [hr, hv.value]
      | some existing =>
          dsimp only
          by_cases hsame : existing = decimal (trim t)
          · rw [if_neg (not_not.mpr hsame)]
            refine ⟨fun h ↦ ⟨_, hdenotes, ?_, by simp [hsame]⟩, fun ⟨v, hv, hr, _⟩ ↦ ?_⟩
            · rw [← hsame]
              exact (Except.ok.inj h).symm
            · rw [hr, hsame, hv.value]
          · rw [if_pos hsame]
            refine ⟨fun h ↦ (by cases h), fun ⟨v, hv, _, hw⟩ ↦ ?_⟩
            exact absurd ((hw existing rfl).trans hv.value.symm) hsame
    · have hparse : parseU64 (trim t) = none := by
        simpa [parseU64] using hfits
      rw [hparse]
      refine ⟨fun h ↦ (by cases h), fun ⟨v, hv, _⟩ ↦ ?_⟩
      have hvalue := hv.value
      have hlt := hv.fits
      omega

/-- What a run over the members gives: the number that all of them stand for. -/
theorem foldlM_contentLengthToken {v : ℕ} {ms : List (List Char)} (hms : ∀ t ∈ ms, trim t = t) :
    ∀ {value : Option ℕ}, ms.foldlM contentLengthToken value = .ok (some v) ↔
      (∀ w ∈ value, w = v) ∧ (value = none → ms ≠ []) ∧ ∀ t ∈ ms, Denotes v t := by
  induction ms with
  | nil =>
      intro value
      cases value with
      | none => simp [pure, Except.pure]
      | some w => simp [pure, Except.pure]
  | cons t ms ih =>
      intro value
      have ht := hms t List.mem_cons_self
      have ih := fun {value} ↦ @ih (fun t' ht' ↦ hms t' (List.mem_cons_of_mem _ ht')) value
      rw [List.foldlM_cons, except_bind_eq_ok]
      refine ⟨fun ⟨r, hr, hrest⟩ ↦ ?_, fun ⟨hvalue, _, hall⟩ ↦ ⟨some v, ?_, ?_⟩⟩
      · obtain ⟨v', hdenotes, rfl, hvalue⟩ := contentLengthToken_eq_ok_iff.mp hr
        obtain ⟨hsame, -, hall⟩ := ih.mp hrest
        obtain rfl := hsame v' rfl
        rw [ht] at hdenotes
        exact ⟨hvalue, fun _ ↦ List.cons_ne_nil _ _, List.forall_mem_cons.mpr ⟨hdenotes, hall⟩⟩
      · refine contentLengthToken_eq_ok_iff.mpr ⟨v, ?_, rfl, hvalue⟩
        rw [ht]
        exact hall t List.mem_cons_self
      · refine ih.mpr ⟨by simp, by simp, fun t' ht' ↦ hall t' (List.mem_cons_of_mem _ ht')⟩

/-- Whether the last member is chunked, or what was known before there were any. -/
def lastChunked (ms : List (List Char)) (before : Bool) : Bool :=
  (ms.getLast?.map isChunked).getD before

theorem lastChunked_cons (t : List Char) (ms : List (List Char)) (before : Bool) :
    lastChunked (t :: ms) before = lastChunked ms (isChunked t) := by
  cases ms with
  | nil => rfl
  | cons t' ms =>
      rw [lastChunked, lastChunked, List.getLast?_cons_cons, List.getLast?_cons]
      rfl

/-- What a run over the codings gives: they are there, and only the last can be chunked. -/
theorem foldlM_transferEncodingToken {ms : List (List Char)} :
    ∀ {s r : Bool × Bool}, ms.foldlM transferEncodingToken s = .ok r ↔
      (s.2 = true → ms = []) ∧ (∀ t ∈ ms, coding t ≠ []) ∧
      (∀ i (hi : i < ms.length), isChunked ms[i] = true → i + 1 = ms.length) ∧
      r = (s.1 || !ms.isEmpty, lastChunked ms s.2) := by
  induction ms with
  | nil =>
      intro s r
      refine ⟨fun h ↦ ?_, fun ⟨_, _, _, hr⟩ ↦ ?_⟩
      · obtain rfl := Except.ok.inj h
        simp [lastChunked]
      · simpa [pure, Except.pure, lastChunked] using hr.symm
  | cons t ms ih =>
      intro s r
      rw [List.foldlM_cons, except_bind_eq_ok]
      refine ⟨fun ⟨s', hs', hrest⟩ ↦ ?_, fun ⟨hfirst, hne, hlast, hr⟩ ↦ ?_⟩
      · obtain ⟨hend, hne, hlast, rfl⟩ := ih.mp hrest
        unfold transferEncodingToken at hs'
        split_ifs at hs' with hempty hfinal
        obtain rfl := Except.ok.inj hs'
        refine ⟨fun h ↦ absurd h hfinal, List.forall_mem_cons.mpr ⟨?_, hne⟩, fun i hi hc ↦ ?_, ?_⟩
        · simpa using hempty
        · cases i with
          | zero =>
              rw [hend hc]
              rfl
          | succ i =>
              have hlen := hlast i (Nat.lt_of_succ_lt_succ hi) hc
              rw [List.length_cons]
              omega
        · rw [lastChunked_cons]
          simp
      · have hs' : transferEncodingToken s t = .ok (true, isChunked t) := by
          have hcoding := hne t List.mem_cons_self
          have hopen : ¬ s.2 = true := fun h ↦ absurd (hfirst h) (List.cons_ne_nil _ _)
          rw [transferEncodingToken, if_neg (by simpa using hcoding), if_neg hopen]
        refine ⟨_, hs', ih.mpr ⟨fun hc ↦ ?_, fun t' ht' ↦ hne t' (List.mem_cons_of_mem _ ht'),
          fun i hi hc ↦ ?_, ?_⟩⟩
        · have hlen := hlast 0 (by simp) hc
          rw [List.length_cons] at hlen
          exact List.length_eq_zero_iff.mp (by omega)
        · have hlen := hlast (i + 1) (by simpa using hi) (by simpa using hc)
          rw [List.length_cons] at hlen
          omega
        · rw [hr, lastChunked_cons]
          simp

/-! ## The layout of the members -/

/-- Every line of a field in `headers'` is one or more of its lines in `headers`, with commas
between them. -/
def Joins (name : String) (headers headers' : List Header) : Prop :=
  ∃ groups : List (List Bytes), (∀ g ∈ groups, g ≠ []) ∧
    fieldValues name headers = groups.flatten ∧
    fieldValues name headers' = groups.map fun g ↦ [44].intercalate g

def IsText (headers : List Header) : Prop := ∀ h ∈ headers, (utf8Chars h.value).isSome

instance (headers : List Header) : Decidable (IsText headers) := List.decidableBAll _ headers

theorem Joins.members_eq {name : String} {headers headers' : List Header}
    (h : Joins name headers headers') :
    members (fieldValues name headers') = members (fieldValues name headers) := by
  obtain ⟨groups, hne, hlines, hjoined⟩ := h
  rw [hlines, hjoined, members_map_intercalate hne]

theorem IsText.members_isSome {headers : List Header} (h : IsText headers) (name : String) :
    ∃ ms, members (fieldValues name headers) = some ms := by
  refine Option.isSome_iff_exists.mp (Http.members_isSome.mpr fun value hvalue ↦ ?_)
  obtain ⟨line, hline, rfl⟩ := List.mem_map.mp hvalue
  exact h line (List.mem_of_mem_filter hline)

/-- Members have no whitespace around them. -/
theorem trim_of_mem_members {values : List Bytes} :
    ∀ {ms : List (List Char)}, members values = some ms → ∀ t ∈ ms, trim t = t := by
  induction values with
  | nil =>
      intro ms hms t ht
      obtain rfl := Option.some.inj hms
      cases ht
  | cons value values ih =>
      intro ms hms t ht
      obtain ⟨first, hfirst, hmore⟩ := Option.bind_eq_some_iff.mp hms
      obtain ⟨rest, hrest, rfl⟩ := Option.map_eq_some_iff.mp hmore
      obtain ⟨text, -, rfl⟩ := Option.map_eq_some_iff.mp hfirst
      rcases List.mem_append.mp ht with hin | hin
      · obtain ⟨raw, -, rfl⟩ := List.mem_map.mp hin
        exact trim_trim raw
      · exact ih hrest t hin

theorem parseContentLength_congr {headers headers' : List Header} (htext : IsText headers)
    (h : members (fieldValues "content-length" headers') =
      members (fieldValues "content-length" headers)) :
    parseContentLength headers' = parseContentLength headers := by
  obtain ⟨ms, hms⟩ := htext.members_isSome "content-length"
  rw [parseContentLength, parseContentLength, contentLengthLine,
    foldlM_fieldLine contentLengthToken_trim _ _ ms hms,
    foldlM_fieldLine contentLengthToken_trim _ _ ms (h.trans hms)]

theorem transferEncodingFraming_congr {headers headers' : List Header} (htext : IsText headers)
    (h : members (fieldValues "transfer-encoding" headers') =
      members (fieldValues "transfer-encoding" headers)) :
    transferEncodingFraming headers' = transferEncodingFraming headers := by
  obtain ⟨ms, hms⟩ := htext.members_isSome "transfer-encoding"
  rw [transferEncodingFraming, transferEncodingFraming, transferEncodingLine,
    foldlM_fieldLine transferEncodingToken_trim _ _ ms hms,
    foldlM_fieldLine transferEncodingToken_trim _ _ ms (h.trans hms)]

theorem parseContentLength_eq_ok_iff {headers : List Header} {v : ℕ} :
    parseContentLength headers = .ok (some v) ↔
      ∃ ms, members (fieldValues "content-length" headers) = some ms ∧ ms ≠ [] ∧
        ∀ t ∈ ms, Denotes v t := by
  rw [parseContentLength, contentLengthLine, foldlM_fieldLine_eq_ok_iff contentLengthToken_trim]
  refine exists_congr fun ms ↦ and_congr_right fun hms ↦ ?_
  rw [foldlM_contentLengthToken (trim_of_mem_members hms)]
  simp

theorem transferEncodingFraming_eq_ok_iff {headers : List Header} {r : Bool × Bool} :
    transferEncodingFraming headers = .ok r ↔
      ∃ ms, members (fieldValues "transfer-encoding" headers) = some ms ∧
        (∀ t ∈ ms, coding t ≠ []) ∧
        (∀ i (hi : i < ms.length), isChunked ms[i] = true → i + 1 = ms.length) ∧
        r = (!ms.isEmpty, lastChunked ms false) := by
  rw [transferEncodingFraming, transferEncodingLine,
    foldlM_fieldLine_eq_ok_iff transferEncodingToken_trim]
  refine exists_congr fun ms ↦ and_congr_right fun hms ↦ ?_
  rw [foldlM_transferEncodingToken]
  simp

/-- A message with both fields has the framing of its codings and is reported. -/
theorem parseHeader_of_both {lib : Httparse} {bytes : Bytes} {head : MessageHead} {v : ℕ}
    {final : Bool} (hhead : messageHead lib bytes = .ok head)
    (hlength : parseContentLength head.headers = .ok (some v))
    (hcodings : transferEncodingFraming head.headers = .ok (true, final)) :
    ∃ parsed, parseHeader lib bytes = .ok parsed ∧ parsed.ambiguousFraming = true ∧
      (∀ cfg kind info, Feed.framing cfg parsed kind info =
        if Feed.hasNoBody parsed kind then some .headers
        else if final then some (.chunked info {} [] 0 true)
        else if parsed.request then none
        else some (.untilClose info [] 0 true)) ∧
      ∀ c offset header f, satAdd f.report.parseErrors 1 ≤
        (Feed.noteHeader c offset header parsed f).report.parseErrors := by
  obtain ⟨parsed, hparsed, hcoded, rfl, hambiguous⟩ : ∃ parsed, parseHeader lib bytes = .ok parsed ∧
      parsed.hasTransferEncoding = true ∧ parsed.transferFinalChunked = final ∧
      parsed.ambiguousFraming = true := by
    rw [parseHeader, hhead]
    simp only [bind, Except.bind, hlength, hcodings]
    exact ⟨_, rfl, rfl, rfl, rfl⟩
  refine ⟨parsed, hparsed, hambiguous, fun cfg kind info ↦ ?_, fun c offset header f ↦ ?_⟩
  · simp [Feed.framing, hcoded]
  · unfold Feed.noteHeader
    dsimp only
    rw [if_pos hambiguous]
    split_ifs
    · simp only [satAdd]
      omega
    · exact le_rfl

/-- The two fields are read by their members, however these are laid out in lines, and a
message with both is framed by its codings. -/
theorem framed_by_members (lib : Httparse) :
    (∀ headers headers', IsText headers →
      (members (fieldValues "content-length" headers') =
          members (fieldValues "content-length" headers) ∨
        Joins "content-length" headers headers' ∨ Joins "content-length" headers' headers →
        parseContentLength headers' = parseContentLength headers) ∧
      (members (fieldValues "transfer-encoding" headers') =
          members (fieldValues "transfer-encoding" headers) ∨
        Joins "transfer-encoding" headers headers' ∨ Joins "transfer-encoding" headers' headers →
        transferEncodingFraming headers' = transferEncodingFraming headers)) ∧
    (∀ headers v, parseContentLength headers = .ok (some v) ↔
      ∃ ms, members (fieldValues "content-length" headers) = some ms ∧ ms ≠ [] ∧
        ∀ t ∈ ms, Denotes v t) ∧
    (∀ headers, (∃ r, transferEncodingFraming headers = .ok r) ↔
      ∃ ms, members (fieldValues "transfer-encoding" headers) = some ms ∧
        (∀ t ∈ ms, coding t ≠ []) ∧
        ∀ i (hi : i < ms.length), isChunked ms[i] = true → i + 1 = ms.length) ∧
    ∀ bytes head v final, messageHead lib bytes = .ok head →
      parseContentLength head.headers = .ok (some v) →
      transferEncodingFraming head.headers = .ok (true, final) →
      ∃ parsed, parseHeader lib bytes = .ok parsed ∧ parsed.ambiguousFraming = true ∧
        (∀ cfg kind info, Feed.framing cfg parsed kind info =
          if Feed.hasNoBody parsed kind then some .headers
          else if final then some (.chunked info {} [] 0 true)
          else if parsed.request then none
          else some (.untilClose info [] 0 true)) ∧
        ∀ c offset header f, satAdd f.report.parseErrors 1 ≤
          (Feed.noteHeader c offset header parsed f).report.parseErrors := by
  refine ⟨fun headers headers' htext ↦ ⟨fun h ↦ ?_, fun h ↦ ?_⟩,
    fun headers v ↦ parseContentLength_eq_ok_iff, fun headers ↦ ?_,
    fun bytes head v final ↦ parseHeader_of_both⟩
  · refine parseContentLength_congr htext ?_
    rcases h with h | h | h
    · exact h
    · exact h.members_eq
    · exact h.members_eq.symm
  · refine transferEncodingFraming_congr htext ?_
    rcases h with h | h | h
    · exact h
    · exact h.members_eq
    · exact h.members_eq.symm
  · refine ⟨fun ⟨r, hr⟩ ↦ ?_, fun ⟨ms, hms, hne, hlast⟩ ↦ ?_⟩
    · obtain ⟨ms, hms, hne, hlast, -⟩ := transferEncodingFraming_eq_ok_iff.mp hr
      exact ⟨ms, hms, hne, hlast⟩
    · exact ⟨_, transferEncodingFraming_eq_ok_iff.mpr ⟨ms, hms, hne, hlast, rfl⟩⟩

/-! ## A request with both fields -/

def lengthLine (value : String) : Header := ⟨"Content-Length".toList, ascii value⟩

def codingLine (value : String) : Header := ⟨"Transfer-Encoding".toList, ascii value⟩

/-- A library that reads one block. -/
def oneRequest (headers : List Header) : Httparse where
  response _ := none
  request _ := some (false, some "POST", some "/", headers)

theorem framed_by_members_oneRequest :
    parseContentLength [lengthLine "5,005 "] =
        parseContentLength [lengthLine "5", lengthLine "005 "] ∧
      parseContentLength [lengthLine "5,005 "] = .ok (some 5) ∧
      ∃ parsed, parseHeader (oneRequest [lengthLine "5", codingLine "gzip, Chunked;q=1"]) [] =
        .ok parsed ∧ parsed.ambiguousFraming = true := by
  refine ⟨?_, ?_, ?_⟩
  · refine ((framed_by_members (oneRequest [])).1 [lengthLine "5", lengthLine "005 "]
      [lengthLine "5,005 "] (by decide +kernel)).1 (.inr (.inl ?_))
    exact ⟨[[ascii "5", ascii "005 "]], by simp, by decide +kernel, by decide +kernel⟩
  · refine ((framed_by_members (oneRequest [])).2.1 _ 5).mpr ⟨[['5'], ['0', '0', '5']], ?_, ?_, ?_⟩
    · decide +kernel
    · simp
    · intro t ht
      rcases List.mem_cons.mp ht with rfl | ht
      · exact ⟨by simp, by simp [isAsciiDigit], by decide, by decide⟩
      · obtain rfl := List.mem_singleton.mp ht
        exact ⟨by simp, by simp [isAsciiDigit], by decide, by decide⟩
  · obtain ⟨parsed, hparsed, hambiguous, -, -⟩ :=
      (framed_by_members (oneRequest [lengthLine "5", codingLine "gzip, Chunked;q=1"])).2.2.2 []
        ⟨true, some "POST", some "/", none, [lengthLine "5", codingLine "gzip, Chunked;q=1"]⟩ 5 true
        (by decide +kernel) (by decide +kernel) (by decide +kernel)
    exact ⟨parsed, hparsed, hambiguous⟩

end Bazalt.Http
