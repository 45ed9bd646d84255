import Bazalt.Http.SizeLine
import Bazalt.Http.Simulation

/-!
# The chunked encoding

The decoder gives a body back from its encoding, however the encoded bytes are cut between
its calls.
-/

namespace Bazalt.Http

open Lib

section Extension

/-- A call with more bytes behind the buffer. -/
def ChunkPass.extend (p : ChunkPass) (v : Bytes) : ChunkPass := { p with buf := p.buf ++ v }

variable {initialLen maxLine maxCollect : ℕ} {p p' : ChunkPass}

theorem ok_turn (hok : p.decoder.Ok p.buf) (h : p.turn initialLen maxLine maxCollect = .again p') :
    p'.decoder.Ok p'.buf ∧ p'.done = p.done := by
  unfold ChunkPass.turn at h
  unfold ChunkedDecoder.Ok at hok
  split at h
  next hstate =>
    unfold ChunkPass.turnSize at h
    split at h
    · split_ifs at h
    · dsimp only at h
      split at h
      · cases h
      · obtain rfl := Turn.again.inj h
        exact ⟨scannedTo_zero _ _, rfl⟩
      next n hn _ =>
        obtain rfl := Turn.again.inj h
        exact ⟨⟨Nat.pos_of_ne_zero hn, rfl⟩, rfl⟩
  next remaining hstate =>
    rw [hstate] at hok
    unfold ChunkPass.turnData at h
    dsimp only at h
    split_ifs at h
    all_goals
      obtain rfl := Turn.again.inj h
      exact ⟨hok.2, rfl⟩
  next hstate =>
    rw [hstate] at hok
    unfold ChunkPass.turnDataCrlf at h
    split_ifs at h
    obtain rfl := Turn.again.inj h
    refine ⟨?_, rfl⟩
    simp only [ChunkedDecoder.Ok]
    rw [show p.decoder.scanFrom = 0 from hok]
    exact scannedTo_zero _ _
  next hstate =>
    unfold ChunkPass.turnTrailers at h
    split at h
    · cases h
    · split at h
      · split at h <;> cases h
      · cases h

/-- Of two rounds, the second one does the same as the first one with `v` behind the buffer,
if that goes on or ends the body. -/
def Extends (v : Bytes) : Turn ChunkPass → Turn ChunkPass → Prop
  | .again p, t => t = .again (p.extend v)
  | .stop p, t => p.done = true → t = .stop (p.extend v)

theorem extends_stop (v : Bytes) (t : Turn ChunkPass) (h : p.done = false) :
    Extends v (.stop p) t := fun hdone ↦ by
  rw [h] at hdone
  cases hdone

theorem turnSize_extend (hscan : ScannedTo crlf p.buf p.decoder.scanFrom) (hnew : p.done = false)
    (v : Bytes) : Extends v (p.turnSize maxLine) ((p.extend v).turnSize maxLine) := by
  unfold ChunkPass.turnSize
  cases hfind : findCrlfFrom p.buf p.decoder.scanFrom with
  | none =>
      dsimp only
      split_ifs <;> exact extends_stop v _ hnew
  | some pos =>
      have hle := findCrlfFrom_le hfind
      have hmore : findCrlfFrom (p.extend v).buf (p.extend v).decoder.scanFrom = some pos :=
        findFrom_append hscan (by decide) hfind v
      rw [hmore]
      simp only [ChunkPass.extend, List.take_append_of_le_length (show pos ≤ p.buf.length by omega),
        List.drop_append_of_le_length hle]
      cases hsize : chunkSize (p.buf.take pos) with
      | none => exact extends_stop v _ hnew
      | some n =>
          cases n with
          | zero => exact rfl
          | succ n => exact rfl

theorem turnData_extend {remaining : ℕ} (hnew : p.done = false) (v : Bytes) :
    Extends v (p.turnData initialLen maxCollect remaining)
      ((p.extend v).turnData (initialLen + v.length) maxCollect remaining) := by
  unfold ChunkPass.turnData
  by_cases hempty : p.buf = []
  · rw [if_pos hempty]
    exact extends_stop v _ hnew
  · have hmore : (p.extend v).buf ≠ [] := fun h ↦ hempty (List.append_eq_nil_iff.mp h).1
    rw [if_neg hempty, if_neg hmore]
    dsimp only
    by_cases hlast : remaining - min remaining p.buf.length = 0
    · have hlen : (p.extend v).buf.length = p.buf.length + v.length := List.length_append
      have htake : min remaining (p.extend v).buf.length = min remaining p.buf.length := by omega
      have hoffset : initialLen + v.length - (p.extend v).buf.length =
          initialLen - p.buf.length := by omega
      rw [htake, if_pos hlast, if_pos hlast, hoffset]
      simp only [ChunkPass.extend, Extends, List.drop_append_of_le_length (min_le_right _ _),
        List.take_append_of_le_length ((min_le_left _ _).trans (min_le_right _ _))]
      rfl
    · rw [if_neg hlast]
      exact extends_stop v _ hnew

theorem turnDataCrlf_extend (hnew : p.done = false) (v : Bytes) :
    Extends v p.turnDataCrlf (p.extend v).turnDataCrlf := by
  unfold ChunkPass.turnDataCrlf
  by_cases hshort : p.buf.length < 2
  · rw [if_pos hshort]
    exact extends_stop v _ hnew
  · have hlong : ¬(p.extend v).buf.length < 2 := by
      simp only [ChunkPass.extend, List.length_append]
      omega
    rw [if_neg hshort, if_neg hlong]
    simp only [ChunkPass.extend, List.take_append_of_le_length (not_lt.mp hshort),
      List.drop_append_of_le_length (not_lt.mp hshort)]
    split_ifs
    · exact extends_stop v _ hnew
    · exact rfl

theorem turnTrailers_extend (hscan : ScannedTo doubleCrlf p.buf p.decoder.scanFrom)
    (hnew : p.done = false) (v : Bytes) :
    Extends v (p.turnTrailers maxLine) ((p.extend v).turnTrailers maxLine) := by
  unfold ChunkPass.turnTrailers
  by_cases hend : crlf <+: p.buf
  · have hmore : crlf <+: (p.extend v).buf := hend.trans (List.prefix_append _ _)
    have hle : 2 ≤ p.buf.length := hend.length_le
    rw [if_pos hend, if_pos hmore]
    simp only [ChunkPass.extend, List.drop_append_of_le_length hle]
    exact fun _ ↦ rfl
  · rw [if_neg hend]
    cases hfind : findDoubleCrlfFrom p.buf p.decoder.scanFrom with
    | none =>
        dsimp only
        split_ifs <;> exact extends_stop v _ hnew
    | some pos =>
        have hle := findDoubleCrlfFrom_le hfind
        have hmore : findDoubleCrlfFrom (p.extend v).buf (p.extend v).decoder.scanFrom =
            some pos := findFrom_append hscan (by decide) hfind v
        have htwo : crlf.length ≤ p.buf.length := by
          simp only [crlf, List.length_cons, List.length_nil]
          omega
        have hnot : ¬crlf <+: (p.extend v).buf := fun h ↦
          hend (List.prefix_of_prefix_length_le h (List.prefix_append _ _) htwo)
        rw [if_neg hnot, hmore]
        simp only [ChunkPass.extend, List.drop_append_of_le_length hle]
        exact fun _ ↦ rfl

theorem turn_extend (initialLen maxLine maxCollect : ℕ) (hok : p.decoder.Ok p.buf)
    (hnew : p.done = false) (v : Bytes) :
    Extends v (p.turn initialLen maxLine maxCollect)
      ((p.extend v).turn (initialLen + v.length) maxLine maxCollect) := by
  unfold ChunkPass.turn
  unfold ChunkedDecoder.Ok at hok
  cases hstate : p.decoder.state with
  | size =>
      rw [hstate] at hok
      rw [show (p.extend v).decoder.state = .size from hstate]
      exact turnSize_extend hok hnew v
  | data remaining =>
      rw [show (p.extend v).decoder.state = .data remaining from hstate]
      exact turnData_extend hnew v
  | dataCrlf =>
      rw [show (p.extend v).decoder.state = .dataCrlf from hstate]
      exact turnDataCrlf_extend hnew v
  | trailers =>
      rw [hstate] at hok
      rw [show (p.extend v).decoder.state = .trailers from hstate]
      exact turnTrailers_extend hok hnew v

/-- A call that ends the body leaves what comes behind it. -/
theorem consume_append {d : ChunkedDecoder} {buf : Bytes} (hok : d.Ok buf) {result : ChunkConsume}
    (h : (d.consume buf maxLine maxCollect).result = some result) (hdone : result.done = true)
    (v : Bytes) : d.consume (buf ++ v) maxLine maxCollect =
      { d.consume buf maxLine maxCollect with
        buf := (d.consume buf maxLine maxCollect).buf ++ v } := by
  obtain ⟨q, hleaves, hq⟩ := d.leaves_consume buf maxLine maxCollect
  obtain ⟨q', hleaves', hq'⟩ := d.leaves_consume (buf ++ v) maxLine maxCollect
  rw [hq] at h ⊢
  rw [hq']
  have hend : q.done = true := by
    simp only [ChunkPass.outcome] at h
    split_ifs at h
    obtain rfl := Option.some.inj h
    exact hdone
  have hsame : ∀ p q, Leaves (ChunkPass.turn buf.length maxLine maxCollect) p q →
      p.decoder.Ok p.buf → p.done = false → q.done = true →
      Leaves (ChunkPass.turn (buf.length + v.length) maxLine maxCollect) (p.extend v)
        (q.extend v) := by
    intro p q hp
    induction hp with
    | stop hs =>
        intro hok hnew hend
        have hext := turn_extend buf.length maxLine maxCollect hok hnew v
        rw [hs] at hext
        exact .stop (hext hend)
    | again hs _ ih =>
        intro hok hnew hend
        have hext := turn_extend buf.length maxLine maxCollect hok hnew v
        rw [hs] at hext
        obtain ⟨hok', hnew'⟩ := ok_turn hok hs
        exact .again hext (ih hok' (hnew'.trans hnew) hend)
  rw [List.length_append] at hleaves' ⊢
  obtain rfl := hleaves'.unique (hsame _ q hleaves hok rfl hend)
  simp only [ChunkPass.outcome, ChunkPass.extend, List.length_append, Nat.add_sub_add_right]

end Extension

section Budget

def ChunkPass.data (p : ChunkPass) : Bytes := p.chunks.flatMap (·.data)

/-- A call that collects at most `k` bytes beside one that collects all of them. -/
structure Trims (k full : ℕ) (p q : ChunkPass) : Prop where
  decoder : p.decoder = q.decoder
  buf : p.buf = q.buf
  bodyBytes : p.bodyBytes = q.bodyBytes
  done : p.done = q.done
  failed : p.failed = q.failed
  data : p.data = q.data.take k
  collected : p.collected = p.data.length
  all : q.collected = q.data.length
  whole : q.bodyBytes = q.data.length
  room : q.data.length + q.buf.length ≤ full

variable {initialLen maxLine k full : ℕ} {p q : ChunkPass}

theorem ChunkPass.data_collect (chunks : List ChunkData) (rel n : ℕ) (data : Bytes) :
    (if n = 0 then chunks else chunks ++ [ChunkData.mk rel (data.take n)]).flatMap (·.data) =
      chunks.flatMap (·.data) ++ data.take n := by
  split_ifs with hn
  · rw [hn, List.take_zero, List.append_nil]
  · simp

theorem collected_ite {a n : ℕ} (h : a + n ≤ u64Max) :
    (if n = 0 then a else satAdd a n) = a + n := by
  split_ifs with hn
  · rw [hn, Nat.add_zero]
  · exact satAdd_of_le h

theorem Trims.turnData (h : Trims k full p q) (hfull : full ≤ u64Max) (remaining : ℕ) :
    Beside (Trims k full) (p.turnData initialLen k remaining)
      (q.turnData initialLen full remaining) := by
  have hroom := h.room
  have hall := h.all
  have hcollected := h.collected
  have hwhole := h.whole
  have hdata := congrArg List.length h.data
  rw [List.length_take] at hdata
  unfold ChunkPass.turnData
  rw [h.buf]
  by_cases hempty : q.buf = []
  · rw [if_pos hempty, if_pos hempty]
    exact h
  · rw [if_neg hempty, if_neg hempty]
    dsimp only
    have htakes : min (min remaining q.buf.length) (full - q.collected) =
        min remaining q.buf.length := by omega
    have hq := ChunkPass.data_collect q.chunks (initialLen - q.buf.length)
      (min remaining q.buf.length) q.buf
    have hp := ChunkPass.data_collect p.chunks (initialLen - q.buf.length)
      (min (min remaining q.buf.length) (k - p.collected)) q.buf
    rw [htakes, h.bodyBytes, collected_ite (by omega), collected_ite (by omega)]
    have hnext : ∀ state : ChunkState, Trims k full
        { p with
          buf := q.buf.drop (min remaining q.buf.length)
          chunks := if min (min remaining q.buf.length) (k - p.collected) = 0 then p.chunks
            else p.chunks ++ [ChunkData.mk (initialLen - q.buf.length)
              (q.buf.take (min (min remaining q.buf.length) (k - p.collected)))]
          collected := p.collected + min (min remaining q.buf.length) (k - p.collected)
          bodyBytes := satAdd q.bodyBytes (min remaining q.buf.length)
          decoder.state := state }
        { q with
          buf := q.buf.drop (min remaining q.buf.length)
          chunks := if min remaining q.buf.length = 0 then q.chunks
            else q.chunks ++ [ChunkData.mk (initialLen - q.buf.length)
              (q.buf.take (min remaining q.buf.length))]
          collected := q.collected + min remaining q.buf.length
          bodyBytes := satAdd q.bodyBytes (min remaining q.buf.length)
          decoder.state := state } := by
      intro state
      refine ⟨?_, rfl, rfl, h.done, h.failed, ?_, ?_, ?_, ?_, ?_⟩
      · simp only [h.decoder]
      · simp only [ChunkPass.data, hp, hq]
        rw [List.take_append, ← ChunkPass.data, ← ChunkPass.data, h.data, List.take_take]
        congr 2
        omega
      · simp only [ChunkPass.data, hp, List.length_append, List.length_take]
        rw [← ChunkPass.data]
        omega
      · simp only [ChunkPass.data, hq, List.length_append, List.length_take]
        rw [← ChunkPass.data]
        omega
      · simp only [ChunkPass.data, hq, List.length_append, List.length_take]
        rw [← ChunkPass.data, satAdd_of_le (by omega)]
        omega
      · simp only [ChunkPass.data, hq, List.length_append, List.length_take, List.length_drop]
        rw [← ChunkPass.data]
        omega
    by_cases hlast : remaining - min remaining q.buf.length = 0
    · rw [if_pos hlast, if_pos hlast]
      exact hnext .dataCrlf
    · rw [if_neg hlast, if_neg hlast]
      exact hnext (.data (remaining - min remaining q.buf.length))

/-- A step that collects nothing. -/
theorem Trims.moves (h : Trims k full p q) {p' q' : ChunkPass} (hdecoder : p'.decoder = q'.decoder)
    (hbuf : p'.buf = q'.buf) (hless : q'.buf.length ≤ q.buf.length) (hdone : p'.done = q'.done)
    (hfailed : p'.failed = q'.failed)
    (hp : p'.chunks = p.chunks ∧ p'.collected = p.collected ∧ p'.bodyBytes = p.bodyBytes)
    (hq : q'.chunks = q.chunks ∧ q'.collected = q.collected ∧ q'.bodyBytes = q.bodyBytes) :
    Trims k full p' q' := by
  have hpdata : p'.data = p.data := by rw [ChunkPass.data, hp.1, ChunkPass.data]
  have hqdata : q'.data = q.data := by rw [ChunkPass.data, hq.1, ChunkPass.data]
  refine ⟨hdecoder, hbuf, ?_, hdone, hfailed, ?_, ?_, ?_, ?_, ?_⟩
  · rw [hp.2.2, hq.2.2, h.bodyBytes]
  · rw [hpdata, hqdata, h.data]
  · rw [hpdata, hp.2.1, h.collected]
  · rw [hqdata, hq.2.1, h.all]
  · rw [hqdata, hq.2.2, h.whole]
  · rw [hqdata]
    exact (Nat.add_le_add_left hless _).trans h.room

theorem Trims.turnSize (h : Trims k full p q) :
    Beside (Trims k full) (p.turnSize maxLine) (q.turnSize maxLine) := by
  unfold ChunkPass.turnSize
  rw [h.buf, h.decoder]
  cases findCrlfFrom q.buf q.decoder.scanFrom with
  | none =>
      dsimp only
      split_ifs
      · exact h.moves h.decoder h.buf le_rfl h.done rfl ⟨rfl, rfl, rfl⟩ ⟨rfl, rfl, rfl⟩
      · exact h.moves rfl rfl le_rfl h.done h.failed ⟨rfl, rfl, rfl⟩ ⟨rfl, rfl, rfl⟩
  | some pos =>
      have hless : (q.buf.drop (pos + 2)).length ≤ q.buf.length := by
        rw [List.length_drop]
        omega
      dsimp only
      cases chunkSize (q.buf.take pos) with
      | none => exact h.moves rfl rfl hless h.done rfl ⟨rfl, rfl, rfl⟩ ⟨rfl, rfl, rfl⟩
      | some n =>
          cases n with
          | zero => exact h.moves rfl rfl hless h.done h.failed ⟨rfl, rfl, rfl⟩ ⟨rfl, rfl, rfl⟩
          | succ n => exact h.moves rfl rfl hless h.done h.failed ⟨rfl, rfl, rfl⟩ ⟨rfl, rfl, rfl⟩

theorem Trims.turnDataCrlf (h : Trims k full p q) :
    Beside (Trims k full) p.turnDataCrlf q.turnDataCrlf := by
  unfold ChunkPass.turnDataCrlf
  rw [h.buf, h.decoder]
  split_ifs
  · exact h
  · exact h.moves h.decoder h.buf le_rfl h.done rfl ⟨rfl, rfl, rfl⟩ ⟨rfl, rfl, rfl⟩
  · have hless : (q.buf.drop 2).length ≤ q.buf.length := by
      rw [List.length_drop]
      omega
    exact h.moves rfl rfl hless h.done h.failed ⟨rfl, rfl, rfl⟩ ⟨rfl, rfl, rfl⟩

theorem Trims.turnTrailers (h : Trims k full p q) :
    Beside (Trims k full) (p.turnTrailers maxLine) (q.turnTrailers maxLine) := by
  have hless : ∀ n, (q.buf.drop n).length ≤ q.buf.length := by
    intro n
    rw [List.length_drop]
    omega
  unfold ChunkPass.turnTrailers
  rw [h.buf, h.decoder]
  by_cases hend : crlf <+: q.buf
  · rw [if_pos hend, if_pos hend]
    exact h.moves rfl rfl (hless 2) rfl h.failed ⟨rfl, rfl, rfl⟩ ⟨rfl, rfl, rfl⟩
  · rw [if_neg hend, if_neg hend]
    cases findDoubleCrlfFrom q.buf q.decoder.scanFrom with
    | none =>
        dsimp only
        split_ifs
        · exact h.moves h.decoder h.buf le_rfl h.done rfl ⟨rfl, rfl, rfl⟩ ⟨rfl, rfl, rfl⟩
        · exact h.moves rfl rfl le_rfl h.done h.failed ⟨rfl, rfl, rfl⟩ ⟨rfl, rfl, rfl⟩
    | some pos => exact h.moves rfl rfl (hless (pos + 4)) rfl h.failed ⟨rfl, rfl, rfl⟩ ⟨rfl, rfl, rfl⟩

theorem Trims.turn (h : Trims k full p q) (hfull : full ≤ u64Max) :
    Beside (Trims k full) (p.turn initialLen maxLine k) (q.turn initialLen maxLine full) := by
  unfold ChunkPass.turn
  rw [h.decoder]
  cases q.decoder.state with
  | size => exact h.turnSize
  | data remaining => exact h.turnData hfull remaining
  | dataCrlf => exact h.turnDataCrlf
  | trailers => exact h.turnTrailers

/-- A call with the budget `k` gives the first `k` bytes of what a call without a limit gives,
and all the rest is the same. -/
theorem trims_consume (d : ChunkedDecoder) {buf : Bytes} (maxLine k : ℕ)
    (hfull : buf.length ≤ full) (hbound : full ≤ u64Max) : ∃ p q, Trims k full p q ∧
      d.consume buf maxLine k = p.outcome buf.length ∧
      d.consume buf maxLine full = q.outcome buf.length := by
  obtain ⟨p, hp, hout⟩ := d.leaves_consume buf maxLine k
  obtain ⟨q, hq, hout'⟩ := d.leaves_consume buf maxLine full
  refine ⟨p, q, ?_, hout, hout'⟩
  refine hp.beside (fun p q h ↦ h.turn hbound) hq ?_
  refine ⟨rfl, rfl, rfl, rfl, rfl, ?_, rfl, rfl, rfl, ?_⟩
  · simp [ChunkPass.data]
  · simpa [ChunkPass.data] using hfull

end Budget

section Encoder

theorem endsFirst_crlf {line : Bytes} (h : ¬crlf <:+: line) : EndsFirst crlf line := by
  intro i hi hoccurs
  rcases Nat.lt_or_ge (i + 1) line.length with hlt | hge
  · rw [occursAt_append_right (by simp only [crlf, List.length_cons, List.length_nil]; omega)]
      at hoccurs
    exact h (infix_iff_occursAt.mpr ⟨i, hoccurs⟩)
  · -- the second byte would be the first one of the line end
    have hlast : i = line.length - 1 := by omega
    rw [OccursAt, List.drop_append_of_le_length (by omega)] at hoccurs
    obtain ⟨b, hb⟩ : ∃ b, line.drop i = [b] := List.length_eq_one_iff.mp (by
      rw [List.length_drop]
      omega)
    rw [hb] at hoccurs
    simp [crlf] at hoccurs

/-- A chunk of a body: its size line, which may have an extension, and its data. -/
structure SizedChunk (maxLine : ℕ) where
  line : Bytes
  data : Bytes
  nonempty : data ≠ []
  size : SizeLine line data.length
  unbroken : ¬crlf <:+: line
  short : (line ++ crlf).length ≤ maxLine

def SizedChunk.encode {maxLine : ℕ} (c : SizedChunk maxLine) : Bytes :=
  c.line ++ crlf ++ c.data ++ crlf

def trailerSection (fields : List Bytes) : Bytes := fields.flatMap (· ++ crlf) ++ crlf

/-- A body in chunks, with the size line of the last chunk and the trailer fields. -/
structure ChunkedBody (maxLine : ℕ) where
  chunks : List (SizedChunk maxLine)
  last : Bytes
  zero : SizeLine last 0
  unbroken : ¬crlf <:+: last
  short : (last ++ crlf).length ≤ maxLine
  fields : List Bytes
  filled : ∀ f ∈ fields, f ≠ [] ∧ ¬crlf <:+: f
  few : (trailerSection fields).length ≤ maxLine

def ChunkedBody.body {maxLine : ℕ} (b : ChunkedBody maxLine) : Bytes := b.chunks.flatMap (·.data)

def ChunkedBody.encode {maxLine : ℕ} (b : ChunkedBody maxLine) : Bytes :=
  b.chunks.flatMap (·.encode) ++ (b.last ++ crlf ++ trailerSection b.fields)

section Trailers

variable {fields : List Bytes} {f t : Bytes} {i : ℕ}

theorem occursAt_doubleCrlf {v : Bytes} (h : OccursAt doubleCrlf v i) :
    OccursAt crlf v i ∧ OccursAt crlf v (i + 2) := by
  obtain ⟨rest, hrest⟩ := h
  refine ⟨⟨crlf ++ rest, hrest⟩, ⟨rest, ?_⟩⟩
  rw [← List.drop_drop, ← hrest]
  rfl

/-- A line end stands at the end of the first line, or behind it. -/
theorem occursAt_crlf_cases (hf : ¬crlf <:+: f) (h : OccursAt crlf (f ++ crlf ++ t) i) :
    i = f.length ∨ ∃ j, i = (f ++ crlf).length + j ∧ OccursAt crlf t j := by
  rcases Nat.lt_trichotomy i f.length with hlt | heq | hgt
  · exact absurd h ((endsFirst_crlf hf).not_occursAt t hlt)
  · exact .inl heq
  · rcases Nat.lt_or_ge i (f.length + 2) with hmid | hge
    · obtain rfl : i = f.length + 1 := by omega
      rw [List.append_assoc, occursAt_append_left] at h
      simp [OccursAt, crlf] at h
    · have hlen : (f ++ crlf).length = f.length + 2 := by simp [crlf]
      obtain ⟨j, rfl⟩ := Nat.exists_eq_add_of_le (hlen.le.trans hge)
      exact .inr ⟨j, rfl, occursAt_append_left.mp h⟩

theorem trailerSection_cons (f : Bytes) (fields : List Bytes) :
    trailerSection (f :: fields) = f ++ crlf ++ trailerSection fields := by
  simp [trailerSection]

theorem not_starts_crlf (hf : f ≠ []) (hline : ¬crlf <:+: f) :
    ¬OccursAt crlf (f ++ crlf ++ t) 0 := by
  intro h
  have hpos := List.length_pos_of_ne_nil hf
  rcases occursAt_crlf_cases hline h with hzero | ⟨j, hj, -⟩
  · omega
  · rw [List.length_append] at hj
    omega

/-- An empty line stands at the end of the trailers only. -/
theorem end_of_doubleCrlf (hfields : ∀ f ∈ fields, f ≠ [] ∧ ¬crlf <:+: f)
    (h : OccursAt doubleCrlf (trailerSection fields) i) :
    i + 4 = (trailerSection fields).length := by
  induction fields generalizing i with
  | nil =>
      have hend := h.end_le (by decide)
      simp [trailerSection, doubleCrlf, crlf] at hend
  | cons f fields ih =>
      have hrest : ∀ g ∈ fields, g ≠ [] ∧ ¬crlf <:+: g :=
        fun g hg ↦ hfields g (List.mem_cons_of_mem f hg)
      rw [trailerSection_cons] at h ⊢
      obtain ⟨hfirst, hsecond⟩ := occursAt_doubleCrlf h
      rcases occursAt_crlf_cases (hfields f List.mem_cons_self).2 hfirst with rfl | ⟨j, rfl, -⟩
      · have hnext : OccursAt crlf (trailerSection fields) 0 := by
          have hlen : f.length + 2 = (f ++ crlf).length + 0 := by simp [crlf]
          rw [hlen] at hsecond
          exact occursAt_append_left.mp hsecond
        cases fields with
        | nil => simp [trailerSection, crlf]
        | cons g fields =>
            obtain ⟨hg, hline⟩ := hrest g List.mem_cons_self
            rw [trailerSection_cons] at hnext
            exact absurd hnext (not_starts_crlf hg hline)
      · have hlater := ih hrest (occursAt_append_left.mp h)
        have hlen : (f ++ crlf ++ trailerSection fields).length =
            (f ++ crlf).length + (trailerSection fields).length := List.length_append
        omega

/-- The trailers are complete at their end and not before. -/
theorem complete_trailerSection (hfields : ∀ f ∈ fields, f ≠ [] ∧ ¬crlf <:+: f) :
    Scan.trailers.Complete (trailerSection fields) ∧
      ∀ q, q <+: trailerSection fields → q ≠ trailerSection fields →
        ¬Scan.trailers.Complete q := by
  refine ⟨?_, fun q hq hne hcomplete ↦ ?_⟩
  · cases hnil : fields.reverse with
    | nil =>
        rw [List.reverse_eq_nil_iff.mp hnil]
        exact .inl rfl
    | cons f fields' =>
        rw [List.reverse_eq_cons_iff.mp hnil]
        refine .inr ⟨fields'.reverse.flatMap (· ++ crlf) ++ f, ?_⟩
        simp [trailerSection, doubleCrlf, crlf]
  · rcases hcomplete with rfl | hsuffix
    · cases fields with
      | nil => exact hne rfl
      | cons f fields =>
          obtain ⟨hf, hline⟩ := hfields f List.mem_cons_self
          rw [trailerSection_cons] at hq
          exact not_starts_crlf hf hline hq
    · have htake : q = (trailerSection fields).take q.length := List.prefix_iff_eq_take.mp hq
      rw [htake, suffix_take_iff hq.length_le] at hsuffix
      have hend := end_of_doubleCrlf hfields hsuffix.2
      refine hne (hq.eq_of_length ?_)
      have hfour : 4 ≤ q.length := hsuffix.1
      have hlen : q.length - doubleCrlf.length + 4 = (trailerSection fields).length := hend
      simp only [doubleCrlf, List.length_cons, List.length_nil] at hlen
      omega

end Trailers

section Reading

def Token.byte? : Token → Option UInt8
  | .header _ _ _ _ => none
  | .body _ _ b => some b

/-- The bytes of bodies among the tokens. -/
def bodyBytes (ts : List Token) : Bytes := ts.filterMap Token.byte?

theorem bodyBytes_append (ts ts' : List Token) :
    bodyBytes (ts ++ ts') = bodyBytes ts ++ bodyBytes ts' := List.filterMap_append

theorem bodyBytes_bodyTokens (view : ContentView) (offset : ℕ) (data : Bytes) :
    bodyBytes (bodyTokens view offset data) = data := by
  induction data generalizing offset with
  | nil => rfl
  | cons b data ih =>
      rw [bodyTokens_cons]
      exact congrArg (b :: ·) (ih (offset + 1))

variable {cfg : HttpConfig} {view : ContentView} {r r' : Reader}

/-- From `r` to `r'` the reader is in phase `phase` and has read the bytes `data` of a body. -/
structure ReadsOn (r r' : Reader) (phase : Phase) (data : Bytes) : Prop where
  phase : r'.phase = phase
  pending : r'.pending = r.pending
  errors : r'.errors = r.errors
  tokens : ∃ ts, r'.tokens = r.tokens ++ ts ∧ bodyBytes ts = data

theorem ReadsOn.trans {r'' : Reader} {phase phase' : Phase} {data data' : Bytes}
    (h : ReadsOn r r' phase data) (h' : ReadsOn r' r'' phase' data') :
    ReadsOn r r'' phase' (data ++ data') := by
  obtain ⟨ts, hts, hdata⟩ := h.tokens
  obtain ⟨ts', hts', hdata'⟩ := h'.tokens
  refine ⟨h'.phase, h'.pending.trans h.pending, h'.errors.trans h.errors, ts ++ ts', ?_, ?_⟩
  · rw [hts', hts, List.append_assoc]
  · rw [bodyBytes_append, hdata, hdata']

theorem run_sizeLine {capture n : ℕ} {line : Bytes} (hphase : r.phase = .scan (.size capture view) [])
    (hsize : SizeLine line n) (hline : ¬crlf <:+: line)
    (hshort : (line ++ crlf).length ≤ cfg.httpMaxHeaderBytes) :
    ReadsOn r (runFrom (Reader.step cfg) r (line ++ crlf))
      (chunkPhase capture view (.ofSize n)) [] := by
  have hends := endsFirst_crlf hline
  have hoccurs : OccursAt crlf (line ++ crlf) line.length := by
    rw [OccursAt, List.drop_left]
  have hwhole : (line ++ crlf).take (line.length + crlf.length) = line ++ crlf := by
    rw [← List.length_append, List.take_length]
  obtain ⟨hcomplete, hfirst⟩ := Reader.shortest_of_first hoccurs List.length_append.ge hends
  rw [hwhole] at hcomplete hfirst
  have hrun : runFrom (Reader.step cfg) r (line ++ crlf) = _ :=
    Reader.run_piece hphase (by simp [crlf]) hcomplete (fun q hq hne _ ↦ hfirst q hq hne) (by
      intro q hq _ hover
      have hlong : cfg.httpMaxHeaderBytes < q.length := hover
      have hle := hq.length_le
      omega)
  have htext : (line ++ crlf).take ((line ++ crlf).length - 2) = line := by
    simp [crlf]
  rw [hrun]
  simp only [Reader.complete, htext, chunkSize_of_sizeLine hsize]
  cases n with
  | zero => exact ⟨rfl, rfl, rfl, [], (List.append_nil _).symm, rfl⟩
  | succ n => exact ⟨rfl, rfl, rfl, [], (List.append_nil _).symm, rfl⟩

theorem run_dataEnd (cfg : HttpConfig) {capture : ℕ}
    (hphase : r.phase = .scan (.dataEnd capture view) []) :
    ReadsOn r (runFrom (Reader.step cfg) r crlf) (.scan (.size capture view) []) [] := by
  have hrun : runFrom (Reader.step cfg) r crlf = _ :=
    Reader.run_piece hphase (by decide) rfl (fun q hq hne _ hlen ↦ hne (hq.eq_of_length hlen))
      fun q _ _ hover ↦ hover
  rw [hrun]
  simp only [Reader.complete, if_true]
  exact ⟨rfl, rfl, rfl, [], (List.append_nil _).symm, rfl⟩

/-- A chunk gives what of its data is still to be captured. -/
theorem run_sizedChunk {capture : ℕ} (hphase : r.phase = .scan (.size capture view) [])
    (c : SizedChunk cfg.httpMaxHeaderBytes) :
    ReadsOn r (runFrom (Reader.step cfg) r c.encode)
      (.scan (.size (capture - c.data.length) view) []) (c.data.take capture) := by
  obtain ⟨n, hn⟩ : ∃ n, c.data.length = n + 1 :=
    Nat.exists_eq_succ_of_ne_zero (List.length_pos_of_ne_nil c.nonempty).ne'
  have hline := run_sizeLine hphase c.size c.unbroken c.short
  have hsized : ReadsOn r (runFrom (Reader.step cfg) r (c.line ++ crlf))
      (.body (some c.data.length) capture view true) [] := by
    rw [hn] at hline ⊢
    exact hline
  rw [SizedChunk.encode, runFrom_append, runFrom_append]
  revert hsized
  generalize runFrom (Reader.step cfg) r (c.line ++ crlf) = r₁
  intro hsized
  have hbody := Reader.run_body cfg hsized.phase c.nonempty (by simp)
  have hdata : ReadsOn r₁ (runFrom (Reader.step cfg) r₁ c.data)
      (.scan (.dataEnd (capture - c.data.length) view) []) (c.data.take capture) := by
    rw [hbody]
    refine ⟨?_, rfl, rfl, _, rfl, bodyBytes_bodyTokens _ _ _⟩
    simp [Phase.afterBody]
  have hend := run_dataEnd cfg hdata.phase
  simpa using (hsized.trans hdata).trans hend

theorem run_trailers {fields : List Bytes} (hphase : r.phase = .scan .trailers [])
    (hfields : ∀ f ∈ fields, f ≠ [] ∧ ¬crlf <:+: f)
    (hfew : (trailerSection fields).length ≤ cfg.httpMaxHeaderBytes) :
    ReadsOn r (runFrom (Reader.step cfg) r (trailerSection fields)) (.scan .header []) [] := by
  obtain ⟨hcomplete, hshort⟩ := complete_trailerSection hfields
  have hrun : runFrom (Reader.step cfg) r (trailerSection fields) = _ :=
    Reader.run_piece hphase (by simp [trailerSection, crlf]) hcomplete
      (fun q hq hne _ ↦ hshort q hq hne) (by
        intro q hq _ hover
        have hlong : cfg.httpMaxHeaderBytes < q.length := hover
        have hle := hq.length_le
        omega)
  rw [hrun]
  exact ⟨rfl, rfl, rfl, [], (List.append_nil _).symm, rfl⟩

theorem run_sizedChunks {capture : ℕ} (hphase : r.phase = .scan (.size capture view) [])
    (chunks : List (SizedChunk cfg.httpMaxHeaderBytes)) :
    ReadsOn r (runFrom (Reader.step cfg) r (chunks.flatMap (·.encode)))
      (.scan (.size (capture - (chunks.flatMap (·.data)).length) view) [])
      ((chunks.flatMap (·.data)).take capture) := by
  induction chunks generalizing r capture with
  | nil =>
      refine ⟨?_, rfl, rfl, [], (List.append_nil _).symm, ?_⟩
      · simpa using hphase
      · simp [bodyBytes]
  | cons c chunks ih =>
      have hfirst := run_sizedChunk hphase c
      have hrest := ih hfirst.phase
      rw [List.flatMap_cons, List.flatMap_cons, runFrom_append, List.length_append,
        List.take_append, ← Nat.sub_sub]
      exact hfirst.trans hrest

/-- Reading an encoded body gives the body, as far as it is captured. -/
theorem run_encode (cfg : HttpConfig) {capture : ℕ} (hphase : r.phase = .scan (.size capture view) [])
    (b : ChunkedBody cfg.httpMaxHeaderBytes) :
    ReadsOn r (runFrom (Reader.step cfg) r b.encode) (.scan .header []) (b.body.take capture) := by
  have hchunks := run_sizedChunks hphase b.chunks
  rw [ChunkedBody.encode, runFrom_append, runFrom_append]
  have hlast := run_sizeLine hchunks.phase b.zero b.unbroken b.short
  have htrailers := run_trailers hlast.phase b.filled b.few
  simpa [ChunkedBody.body] using (hchunks.trans hlast).trans htrailers

end Reading

section Calls

/-- A decoder between calls, with the bytes of the body so far, and for every call what the
buffer was and what was given back. -/
structure Calls where
  decoder : ChunkedDecoder := {}
  buf : Bytes := []
  seen : ℕ := 0
  failed : Bool := false
  reports : List (Bytes × ChunkConsume) := []
  deriving DecidableEq, Repr

/-- A piece joins the buffer and the decoder is called with its part of the budget. -/
def Calls.call (maxLine : ℕ) (budget : ℕ → ℕ) (s : Calls) (piece : Bytes) : Calls :=
  let buf := s.buf ++ piece
  let out := s.decoder.consume buf maxLine (budget s.seen)
  match out.result with
  | none => { s with decoder := out.decoder, buf := out.buf, failed := true }
  | some result => { s with
      decoder := out.decoder
      buf := out.buf
      seen := satAdd s.seen result.bodyBytes
      reports := s.reports ++ [(buf, result)] }

def ChunkConsume.data (result : ChunkConsume) : Bytes := result.dataChunks.flatMap (·.data)

def Calls.data (s : Calls) : Bytes := s.reports.flatMap (·.2.data)

/-- The data of a report is where it says in the bytes that the call took. -/
def PlacedReport (q : Bytes × ChunkConsume) : Prop :=
  PlacedIn q.1 q.2.wireConsumed (q.2.dataChunks.map fun d ↦ (d.relativeOffset, d.data))

variable {maxLine : ℕ} {budget : ℕ → ℕ} {s : Calls} {piece : Bytes}

theorem placed_call (h : ∀ q ∈ s.reports, PlacedReport q) :
    ∀ q ∈ (s.call maxLine budget piece).reports, PlacedReport q := by
  obtain ⟨k, -, -, hplaced⟩ :=
    s.decoder.placed_consume (s.buf ++ piece) maxLine (budget s.seen)
  unfold Calls.call
  dsimp only
  split
  · exact h
  next result hresult =>
    intro q hq
    rcases List.mem_append.mp hq with hold | hnew
    · exact h q hold
    · obtain rfl := List.mem_singleton.mp hnew
      obtain ⟨hwire, hin⟩ := hplaced result hresult
      rw [PlacedReport, hwire]
      exact hin

theorem placed_run {pieces : List Bytes} (h : ∀ q ∈ s.reports, PlacedReport q) :
    ∀ q ∈ (runFrom (Calls.call maxLine budget) s pieces).reports, PlacedReport q := by
  induction pieces generalizing s with
  | nil => exact h
  | cons piece pieces ih => exact ih (placed_call h)

theorem bodyBytes_chunkTokens (view : ContentView) (base : ℕ) (chunks : List ChunkData) :
    bodyBytes (chunkTokens view base chunks) = chunks.flatMap (·.data) := by
  induction chunks with
  | nil => rfl
  | cons chunk chunks ih =>
      have hcons : chunkTokens view base (chunk :: chunks) =
          bodyTokens view (base + chunk.relativeOffset) chunk.data ++
            chunkTokens view base chunks := rfl
      rw [hcons, bodyBytes_append, bodyBytes_bodyTokens, ih, List.flatMap_cons]

/-- Within `total` bytes, the calls together collect the first `m` bytes of the body. -/
def Spreads (budget : ℕ → ℕ) (m total : ℕ) : Prop :=
  ∀ (seen : ℕ) (data : Bytes), seen + data.length ≤ total →
    data.take (budget seen) = data.take (m - seen)

theorem spreads_sub (m total : ℕ) : Spreads (m - ·) m total := fun _ _ _ ↦ rfl

theorem spreads_unlimited {total : ℕ} (h : total ≤ u64Max) :
    Spreads (fun _ ↦ u64Max) u64Max total := by
  intro seen data hlen
  show data.take u64Max = data.take (u64Max - seen)
  rw [List.take_of_length_le (by omega), List.take_of_length_le (by omega)]

/-- The limits of a decoder that collects everything. -/
def decoderConfig (maxLine total : ℕ) : HttpConfig where
  httpMaxHeaderBytes := maxLine
  httpMaxBodyBytes := total
  httpMaxDecodeBytes := 0
  httpMaxDecodeRatio := 0
  parseHeader _ := none
  inflate _ _ := none

variable {m total : ℕ} {view : ContentView} {r₀ r : Reader} {read : Bytes}

/-- After the bytes `read` of an encoded body the decoder is where the reader is. -/
structure Within (maxLine m total : ℕ) (view : ContentView) (r₀ : Reader) (read : Bytes)
    (s : Calls) (r : Reader) : Prop where
  failed : s.failed = false
  ok : s.decoder.Ok s.buf
  length : s.seen + s.buf.length ≤ read.length
  phase : r.phase = chunkPhase (total - s.seen) view s.decoder.state
  run : runFrom (Reader.step (decoderConfig maxLine total)) r s.buf =
    runFrom (Reader.step (decoderConfig maxLine total)) r₀ read
  tokens : ∃ ts, r.tokens = r₀.tokens ++ ts ∧ (bodyBytes ts).length = s.seen ∧
    s.data = (bodyBytes ts).take m

/-- One call, in step with the reader. -/
theorem Within.call (h : Within maxLine m total view r₀ read s r) (hspreads : Spreads budget m total)
    (htotal : (read ++ piece).length ≤ total) (hbound : total ≤ u64Max)
    (hok : (runFrom (Reader.step (decoderConfig maxLine total)) r₀ (read ++ piece)).phase ≠
      .failed) :
    ∃ (p : ChunkPass) (result : ChunkConsume),
      ChunkEnd (decoderConfig maxLine total) view s.seen (s.buf ++ piece) r p ∧
      (s.decoder.consume (s.buf ++ piece) maxLine (budget s.seen)).result = some result ∧
      s.call maxLine budget piece = { s with
        decoder := p.decoder
        buf := p.buf
        seen := s.seen + p.bodyBytes
        reports := s.reports ++ [(s.buf ++ piece, result)] } ∧
      result.done = p.done ∧ p.data.length = p.bodyBytes ∧
      (s.call maxLine budget piece).data = s.data ++ p.data.take (m - s.seen) := by
  have hlength := h.length
  rw [List.length_append] at htotal
  have hbuf : (s.buf ++ piece).length ≤ total - s.seen := by
    rw [List.length_append]
    omega
  have hrun : runFrom (Reader.step (decoderConfig maxLine total)) r (s.buf ++ piece) =
      runFrom (Reader.step (decoderConfig maxLine total)) r₀ (read ++ piece) := by
    rw [runFrom_append, h.run, ← runFrom_append]
  rw [← hrun] at hok
  obtain ⟨p, hend, hp⟩ := chunkEnd_consume (h.ok.append piece) h.phase (by omega) hok
  obtain ⟨p', q, htrims, hp', hq⟩ := trims_consume s.decoder maxLine (budget s.seen) hbuf
    ((Nat.sub_le _ _).trans hbound)
  have hsame : p.outcome (s.buf ++ piece).length = q.outcome (s.buf ++ piece).length :=
    hp.symm.trans hq
  have hresult := congrArg ChunkOutcome.result hsame
  simp only [ChunkPass.outcome, hend.failed, Bool.false_eq_true, if_false] at hresult
  have hq' : q.failed = false := by
    cases hfailed : q.failed with
    | false => rfl
    | true =>
        rw [hfailed] at hresult
        cases hresult
  rw [hq', if_neg Bool.false_ne_true, Option.some.injEq, ChunkConsume.mk.injEq] at hresult
  obtain ⟨hchunks, hdone, -, hbytes⟩ := hresult
  have hdecoder : p.decoder = q.decoder := congrArg ChunkOutcome.decoder hsame
  have hrest : p.buf = q.buf := congrArg ChunkOutcome.buf hsame
  have hdata : p.data = q.data := by rw [ChunkPass.data, hchunks, ChunkPass.data]
  have hlen : p.data.length = p.bodyBytes := by rw [hdata, hbytes, htrims.whole]
  have hroom := htrims.room
  rw [← hdata] at hroom
  have hout : s.decoder.consume (s.buf ++ piece) maxLine (budget s.seen) =
      { decoder := p.decoder
        buf := p.buf
        result := some ⟨p'.chunks, p.done, (s.buf ++ piece).length - p.buf.length,
          p.bodyBytes⟩ } := by
    rw [hp']
    simp only [ChunkPass.outcome, htrims.failed, hq', Bool.false_eq_true, if_false, htrims.decoder,
      ← hdecoder, htrims.buf, ← hrest, htrims.done, ← hdone, htrims.bodyBytes, ← hbytes]
  have hcall : s.call maxLine budget piece = { s with
      decoder := p.decoder
      buf := p.buf
      seen := s.seen + p.bodyBytes
      reports := s.reports ++ [(s.buf ++ piece, ⟨p'.chunks, p.done,
        (s.buf ++ piece).length - p.buf.length, p.bodyBytes⟩)] } := by
    simp only [Calls.call, hout]
    rw [satAdd_of_le (by omega)]
  refine ⟨p, _, hend, by rw [hout], hcall, rfl, hlen, ?_⟩
  have hcollected : p'.chunks.flatMap (·.data) = p.data.take (m - s.seen) := by
    have hfirst : p'.data = p.data.take (budget s.seen) := by rw [htrims.data, hdata]
    rw [← ChunkPass.data, hfirst, hspreads s.seen p.data (by omega)]
  rw [hcall, Calls.data, List.flatMap_append, ← Calls.data]
  simp [ChunkConsume.data, hcollected]

/-- After the end of the body, this reader takes what comes for one header block. -/
theorem run_after (maxLine total : ℕ) (bs : Bytes) {acc : Bytes}
    (hphase : r.phase = .scan .header acc) :
    (runFrom (Reader.step (decoderConfig maxLine total)) r bs).phase = .scan .header (acc ++ bs) ∨
      (runFrom (Reader.step (decoderConfig maxLine total)) r bs).phase = .failed := by
  induction bs generalizing r acc with
  | nil =>
      rw [List.append_nil]
      exact .inl hphase
  | cons b bs ih =>
      rw [runFrom_cons]
      have hfailed : ∀ r : Reader, r.phase = .failed →
          (runFrom (Reader.step (decoderConfig maxLine total)) r bs).phase = .failed := by
        intro r hr
        rwa [Reader.run_failed hr]
      unfold Reader.step
      rw [hphase]
      dsimp only
      split_ifs
      · exact .inr (hfailed _ rfl)
      · exact .inr (hfailed _ rfl)
      · have hnext := ih (r := { r with
            phase := .scan .header (acc ++ [b]), offset := r.offset + 1 }) rfl
        rwa [List.append_assoc] at hnext

theorem chunkPhase_ne_header (capture : ℕ) (view : ContentView) (state : ChunkState) (acc : Bytes) :
    chunkPhase capture view state ≠ .scan .header acc := by
  cases state <;> simp [chunkPhase]

/-- At the end of an encoded body nothing is left over. -/
theorem eq_nil_of_after {bs : Bytes} (hphase : r.phase = .scan .header [])
    (hend : (runFrom (Reader.step (decoderConfig maxLine total)) r bs).phase = .scan .header []) :
    bs = [] := by
  rcases run_after maxLine total bs hphase with hscan | hfailed
  · rw [hend] at hscan
    simpa using hscan
  · rw [hend] at hfailed
    cases hfailed

/-- Before the end of an encoded body the calls do not report its end. -/
theorem Within.next (h : Within maxLine m total view r₀ read s r)
    (hspreads : Spreads budget m total) (hbound : total ≤ u64Max) {later : Bytes}
    (htotal : (read ++ piece ++ later).length ≤ total) (hlater : later ≠ [])
    (hend : (runFrom (Reader.step (decoderConfig maxLine total)) r₀
      (read ++ piece ++ later)).phase = .scan .header []) :
    (∃ r', Within maxLine m total view r₀ (read ++ piece) (s.call maxLine budget piece) r') ∧
      (s.call maxLine budget piece).reports.map (·.2.done) =
        s.reports.map (·.2.done) ++ [false] := by
  have hlen := h.length
  have hfits : (read ++ piece).length ≤ total := by
    rw [List.length_append] at htotal
    omega
  have hwhole : (runFrom (Reader.step (decoderConfig maxLine total)) r₀
      (read ++ piece ++ later)).phase ≠ .failed := by
    rw [hend]
    exact Phase.noConfusion
  have hok := Reader.not_failed_of_append hwhole
  obtain ⟨p, result, hchunk, -, hcall, hdone, hbytes, hdata⟩ :=
    h.call hspreads hfits hbound hok
  have hrun : runFrom (Reader.step (decoderConfig maxLine total)) r (s.buf ++ piece) =
      runFrom (Reader.step (decoderConfig maxLine total)) r₀ (read ++ piece) := by
    rw [runFrom_append, h.run, ← runFrom_append]
  have hmore : p.done = false := by
    cases hp : p.done with
    | false => rfl
    | true =>
        obtain ⟨r', hphase, -, -, -, -, hrun'⟩ := hchunk.done hp
        rw [runFrom_append, ← hrun, ← hrun', ← runFrom_append] at hend
        have hnil := eq_nil_of_after hphase hend
        exact absurd (List.append_eq_nil_iff.mp hnil).2 hlater
  obtain ⟨r', hsim, -⟩ := hchunk.more hmore
  obtain ⟨ts, hts, hseen, hcollected⟩ := h.tokens
  have hlength := hsim.length
  rw [List.length_append] at hlength
  refine ⟨⟨r', ?_, ?_, ?_, ?_, ?_, ?_⟩, ?_⟩
  · rw [hcall]
    exact h.failed
  · rw [hcall]
    exact hsim.decoder
  · rw [hcall, List.length_append]
    dsimp only
    omega
  · rw [hcall]
    exact hsim.phase
  · rw [hcall]
    exact hsim.run.trans hrun
  · refine ⟨ts ++ chunkTokens view r.offset p.chunks, ?_, ?_, ?_⟩
    · rw [hsim.tokens, hts, List.append_assoc]
    · rw [hcall, bodyBytes_append, bodyBytes_chunkTokens, ← ChunkPass.data, List.length_append,
        hseen, hbytes]
    · rw [hdata, bodyBytes_append, bodyBytes_chunkTokens, ← ChunkPass.data, List.take_append,
        hcollected, hseen]
  · rw [hcall]
    simp [hdone, hmore]

theorem Within.calls {pieces : List Bytes} {later : Bytes}
    (h : Within maxLine m total view r₀ read s r) (hspreads : Spreads budget m total)
    (hbound : total ≤ u64Max) (htotal : (read ++ pieces.flatten ++ later).length ≤ total)
    (hlater : later ≠ [])
    (hend : (runFrom (Reader.step (decoderConfig maxLine total)) r₀
      (read ++ pieces.flatten ++ later)).phase = .scan .header []) :
    (∃ r', Within maxLine m total view r₀ (read ++ pieces.flatten)
        (runFrom (Calls.call maxLine budget) s pieces) r') ∧
      (runFrom (Calls.call maxLine budget) s pieces).reports.map (·.2.done) =
        s.reports.map (·.2.done) ++ List.replicate pieces.length false := by
  induction pieces generalizing s read r with
  | nil =>
      refine ⟨⟨r, ?_⟩, ?_⟩
      · rw [List.flatten_nil, List.append_nil]
        exact h
      · simp
  | cons piece pieces ih =>
      have hsplit : read ++ (piece :: pieces).flatten ++ later =
          read ++ piece ++ (pieces.flatten ++ later) := by simp
      rw [hsplit] at htotal hend
      obtain ⟨⟨r', hnext⟩, hdone⟩ := h.next hspreads hbound htotal
        (fun hnil ↦ hlater (List.append_eq_nil_iff.mp hnil).2) hend
      rw [← List.append_assoc] at htotal hend
      obtain ⟨hlast, hdones⟩ := ih hnext htotal hend
      rw [runFrom_cons]
      refine ⟨?_, ?_⟩
      · simpa using hlast
      · rw [hdones, hdone]
        simp [List.replicate_succ]

/-- The call that gets the last byte of an encoded body. -/
theorem Within.last (h : Within maxLine m total view r₀ read s r)
    (hspreads : Spreads budget m total) (hbound : total ≤ u64Max) {rest body : Bytes}
    (htotal : (read ++ piece).length ≤ total)
    (hend : ReadsOn r₀ (runFrom (Reader.step (decoderConfig maxLine total)) r₀ (read ++ piece))
      (.scan .header []) body) :
    let s' := s.call maxLine budget (piece ++ rest)
    s'.failed = false ∧ s'.reports.map (·.2.done) = s.reports.map (·.2.done) ++ [true] ∧
      s'.buf = rest ∧ s'.data = body.take m ∧ s'.seen = body.length := by
  have hok : (runFrom (Reader.step (decoderConfig maxLine total)) r₀ (read ++ piece)).phase ≠
      .failed := by
    rw [hend.phase]
    exact Phase.noConfusion
  obtain ⟨p, result, hchunk, hresult, hcall, hdone, hbytes, hdata⟩ :=
    h.call hspreads htotal hbound hok
  have hrun : runFrom (Reader.step (decoderConfig maxLine total)) r (s.buf ++ piece) =
      runFrom (Reader.step (decoderConfig maxLine total)) r₀ (read ++ piece) := by
    rw [runFrom_append, h.run, ← runFrom_append]
  have hfinished : p.done = true := by
    cases hp : p.done with
    | true => rfl
    | false =>
        obtain ⟨r', hsim, hwaiting⟩ := hchunk.more hp
        have hphase := hend.phase
        rw [← hrun, ← hsim.run] at hphase
        rcases hwaiting with hnil | ⟨what, hscan, hopen⟩
        · rw [hnil, runFrom_nil, hsim.phase] at hphase
          exact absurd hphase (chunkPhase_ne_header _ _ _ _)
        · rw [hopen] at hphase
          obtain ⟨rfl, -⟩ := Phase.scan.inj hphase
          rw [hsim.phase] at hscan
          exact absurd hscan (chunkPhase_ne_header _ _ _ _)
  obtain ⟨r', hphase, -, htokens, -, -, hrun'⟩ := hchunk.done hfinished
  have hempty : p.buf = [] := by
    have hlast := hend.phase
    rw [← hrun, ← hrun'] at hlast
    exact eq_nil_of_after hphase hlast
  obtain ⟨ts, hts, hseen, hcollected⟩ := h.tokens
  obtain ⟨us, hus, hbody⟩ := hend.tokens
  have hall : bodyBytes ts ++ p.data = body := by
    rw [hempty, runFrom_nil, hrun] at hrun'
    rw [hrun', hus, hts, List.append_assoc] at htokens
    have hsame := List.append_cancel_left htokens
    rw [← hbody, hsame, bodyBytes_append, bodyBytes_chunkTokens, ChunkPass.data]
  have hextended := consume_append (h.ok.append piece) hresult (hdone.trans hfinished) rest
  have hfirst : (s.decoder.consume (s.buf ++ piece) maxLine (budget s.seen)).buf = [] := by
    have hbuf := congrArg Calls.buf hcall
    simp only [Calls.call, hresult] at hbuf
    rw [hbuf, hempty]
  have hlast : s.call maxLine budget (piece ++ rest) = { s.call maxLine budget piece with
      buf := rest
      reports := s.reports ++ [(s.buf ++ (piece ++ rest), result)] } := by
    simp only [Calls.call, ← List.append_assoc, hextended, hresult, hfirst, List.nil_append]
  rw [hlast]
  refine ⟨?_, ?_, rfl, ?_, ?_⟩
  · rw [hcall]
    exact h.failed
  · simp [hdone, hfinished]
  · have hsame : ({ s.call maxLine budget piece with
        buf := rest
        reports := s.reports ++ [(s.buf ++ (piece ++ rest), result)] } : Calls).data =
        (s.call maxLine budget piece).data := by
      rw [hcall]
      simp [Calls.data]
    rw [hsame, hdata, hcollected, ← hall, List.take_append, hseen]
  · rw [hcall, ← hall, List.length_append, hseen, hbytes]

/-- What the calls give for an encoded body that is followed by `rest`: the end is reported in
the last call only, what follows stays in the buffer, and the data is collected. -/
structure Decoded (maxLine : ℕ) (budget : ℕ → ℕ) (pieces : List Bytes) (piece rest body data : Bytes) :
    Prop where
  failed : (runFrom (Calls.call maxLine budget) {} (pieces ++ [piece])).failed = false
  done : (runFrom (Calls.call maxLine budget) {} (pieces ++ [piece])).reports.map (·.2.done) =
    List.replicate pieces.length false ++ [true]
  placed : ∀ q ∈ (runFrom (Calls.call maxLine budget) {} (pieces ++ [piece])).reports,
    PlacedReport q
  buf : (runFrom (Calls.call maxLine budget) {} (pieces ++ [piece])).buf = rest
  data : (runFrom (Calls.call maxLine budget) {} (pieces ++ [piece])).data = data
  seen : (runFrom (Calls.call maxLine budget) {} (pieces ++ [piece])).seen = body.length

theorem length_body_le (b : ChunkedBody maxLine) : b.body.length ≤ b.encode.length := by
  have hchunks : ∀ chunks : List (SizedChunk maxLine),
      (chunks.flatMap (·.data)).length ≤ (chunks.flatMap (·.encode)).length := by
    intro chunks
    induction chunks with
    | nil => exact le_rfl
    | cons c chunks ih =>
        have hdata : c.data.length ≤ c.encode.length := by
          simp only [SizedChunk.encode, List.length_append]
          omega
        simp only [List.flatMap_cons, List.length_append]
        omega
  rw [ChunkedBody.body, ChunkedBody.encode, List.length_append]
  exact (hchunks b.chunks).trans (Nat.le_add_right _ _)

theorem decoded_of_spreads (b : ChunkedBody maxLine) {pieces : List Bytes} {piece rest : Bytes}
    (hcut : pieces.flatten ++ piece = b.encode ++ rest)
    (hbefore : pieces.flatten.length < b.encode.length)
    (hbound : (b.encode ++ rest).length ≤ u64Max)
    (hspreads : Spreads budget m (b.encode ++ rest).length) :
    Decoded maxLine budget pieces piece rest b.body (b.body.take m) := by
  obtain ⟨u, hu⟩ : pieces.flatten <+: b.encode := by
    refine List.prefix_of_prefix_length_le ⟨piece, hcut⟩ (List.prefix_append _ _) hbefore.le
  obtain rfl : piece = u ++ rest := by
    rw [← hu, List.append_assoc] at hcut
    exact List.append_cancel_left hcut
  have hne : u ≠ [] := by
    rintro rfl
    rw [List.append_nil] at hu
    rw [hu] at hbefore
    exact absurd hbefore (lt_irrefl _)
  generalize htotal : (b.encode ++ rest).length = total at hbound hspreads
  have hfits : b.encode.length ≤ total := by
    rw [← htotal, List.length_append]
    omega
  let r₀ : Reader := { phase := .scan (.size total .httpRequestBody) [], pending := [] }
  have hread : ReadsOn r₀ (runFrom (Reader.step (decoderConfig maxLine total)) r₀ b.encode)
      (.scan .header []) b.body := by
    have hencode : ReadsOn r₀ (runFrom (Reader.step (decoderConfig maxLine total)) r₀ b.encode)
        (.scan .header []) (b.body.take total) := run_encode (decoderConfig maxLine total) rfl b
    rwa [List.take_of_length_le ((length_body_le b).trans hfits)] at hencode
  have hstart : Within maxLine m total .httpRequestBody r₀ [] {} r₀ :=
    ⟨rfl, scannedTo_zero _ _, le_rfl, rfl, rfl, [], (List.append_nil _).symm, rfl,
      by simp [Calls.data, bodyBytes]⟩
  rw [← hu] at hread hfits
  obtain ⟨⟨r, hwithin⟩, hdone⟩ := hstart.calls hspreads hbound
    (by rwa [List.nil_append]) hne (by rw [List.nil_append]; exact hread.phase)
  rw [List.nil_append] at hwithin
  obtain ⟨hfailed, hlast, hbuf, hdata, hseen⟩ := hwithin.last hspreads hbound hfits hread
  have hrun : runFrom (Calls.call maxLine budget) {} (pieces ++ [u ++ rest]) =
      (runFrom (Calls.call maxLine budget) {} pieces).call maxLine budget (u ++ rest) := by
    rw [runFrom_append]
    rfl
  constructor
  · rw [hrun]
    exact hfailed
  · rw [hrun, hlast, hdone]
    rfl
  · exact placed_run (by simp)
  · rw [hrun]
    exact hbuf
  · rw [hrun]
    exact hdata
  · rw [hrun]
    exact hseen

/-- The decoder inverts the encoding, however the bytes are cut between the calls, and with a
budget it collects the beginning of the body. -/
theorem decoded_of_encoded (maxLine : ℕ) (b : ChunkedBody maxLine) (rest : Bytes)
    (pieces : List Bytes) (piece : Bytes) (hcut : pieces.flatten ++ piece = b.encode ++ rest)
    (hbefore : pieces.flatten.length < b.encode.length)
    (hbound : (b.encode ++ rest).length ≤ u64Max) :
    Decoded maxLine (fun _ ↦ u64Max) pieces piece rest b.body b.body ∧
      ∀ m, Decoded maxLine (m - ·) pieces piece rest b.body (b.body.take m) := by
  constructor
  · have hunlimited := decoded_of_spreads b hcut hbefore hbound (spreads_unlimited hbound)
    rwa [List.take_of_length_le] at hunlimited
    have hlen := length_body_le b
    rw [List.length_append] at hbound
    omega
  · exact fun m ↦ decoded_of_spreads b hcut hbefore hbound (spreads_sub m _)

/-- One chunk with an extension, and a trailer field. -/
def abcBody : ChunkedBody 64 where
  chunks := [{
    line := ascii "3;a=b"
    data := ascii "abc"
    nonempty := by decide
    size := ⟨['3'], by decide +kernel, by decide, by decide, by decide +kernel,
      by decide +kernel⟩
    unbroken := by decide +kernel
    short := by decide }]
  last := ascii "0"
  zero := ⟨['0'], by decide +kernel, by decide, by decide, by decide +kernel,
      by decide +kernel⟩
  unbroken := by decide +kernel
  short := by decide
  fields := [ascii "X: y"]
  filled := by decide +kernel
  few := by decide

theorem decoded_abcBody : abcBody.encode = ascii "3;a=b\r\nabc\r\n0\r\nX: y\r\n\r\n" ∧
    Decoded 64 (fun _ ↦ u64Max) [ascii "3;a=b\r", ascii "\nab", ascii "c\r\n0\r\nX: y\r\n"]
      (ascii "\r\nGET") (ascii "GET") (ascii "abc") (ascii "abc") ∧
    ∀ m, Decoded 64 (m - ·) [ascii "3;a=b\r", ascii "\nab", ascii "c\r\n0\r\nX: y\r\n"]
      (ascii "\r\nGET") (ascii "GET") (ascii "abc") ((ascii "abc").take m) :=
  ⟨by decide +kernel, decoded_of_encoded 64 abcBody (ascii "GET") _ _ (by decide +kernel)
    (by decide +kernel) (by decide +kernel)⟩

end Calls

end Encoder

end Bazalt.Http
