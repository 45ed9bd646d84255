import Bazalt.Http.Reader
import Bazalt.Http.Wire

/-!
# The parser reads what the byte-by-byte reader reads

Between two rounds of its loop, a parser is where the reader is at the first byte of the
parser's buffer: in the same phase, with the same tokens read and the same requests pending.
The positions from which it goes on searching leave nothing out.
-/

namespace Bazalt.Http

open Lib

section Tokens

/-- The metadata without what depends on the flow and on the time. -/
def HttpRecord.bare (record : HttpRecord) : HttpRecord :=
  { record with flowId := 0, timestamp := 0 }

/-- The tokens of an event.  Decoded bodies give none. -/
def HttpEmission.tokens (e : HttpEmission) : List Token :=
  match e.info with
  | some record => e.content.map fun r ↦ .header r.view record.bare r.streamOffset r.data
  | none => e.content.flatMap fun r ↦
      if IsWire r.view then bodyTokens r.view r.streamOffset r.data else []

def tokensOf (es : List HttpEmission) : List Token := es.flatMap HttpEmission.tokens

theorem tokensOf_append (es es' : List HttpEmission) :
    tokensOf (es ++ es') = tokensOf es ++ tokensOf es' := List.flatMap_append

def chunkTokens (view : ContentView) (base : ℕ) (chunks : List ChunkData) : List Token :=
  chunks.flatMap fun d ↦ bodyTokens view (base + d.relativeOffset) d.data

theorem tokensOf_bodyEvent {d : Direction} {info : MessageInfo} (hinfo : info.Of d) (offset : ℕ)
    (data : Bytes) : tokensOf [contentEvent info (bodyRecord info offset data)] =
      bodyTokens info.bodyView offset data := by
  simp [tokensOf, HttpEmission.tokens, contentEvent, bodyRecord, hinfo.body]

theorem Hidden.tokensOf {d : Direction} {record : Option HttpContent} (h : Hidden d record)
    (info : MessageInfo) : tokensOf (record.toList.map (contentEvent info)) = [] := by
  cases record with
  | none => rfl
  | some r => simp [Http.tokensOf, HttpEmission.tokens, contentEvent, (h r rfl).2]

theorem tokensOf_chunkEvents {d : Direction} {info : MessageInfo} (hinfo : info.Of d) {base : ℕ}
    {chunks : List ChunkData} (hbound : ∀ q ∈ chunks, base + q.relativeOffset ≤ u64Max) :
    tokensOf (Feed.chunkEvents info base chunks) = chunkTokens info.bodyView base chunks := by
  induction chunks with
  | nil => rfl
  | cons chunk chunks ih =>
      have hcons : Feed.chunkEvents info base (chunk :: chunks) =
          [contentEvent info (bodyRecord info (satAdd base chunk.relativeOffset) chunk.data)] ++
            Feed.chunkEvents info base chunks := rfl
      rw [hcons, tokensOf_append, tokensOf_bodyEvent hinfo,
        satAdd_of_le (hbound chunk List.mem_cons_self),
        ih fun q hq ↦ hbound q (List.mem_cons_of_mem chunk hq)]
      rfl

end Tokens

section Chunks

/-- The position in the buffer from which the decoder goes on leaves nothing out. -/
def ChunkedDecoder.Ok (d : ChunkedDecoder) (buf : Bytes) : Prop :=
  match d.state with
  | .size => ScannedTo crlf buf d.scanFrom
  | .data n => 0 < n ∧ d.scanFrom = 0
  | .dataCrlf => d.scanFrom = 0
  | .trailers => ScannedTo doubleCrlf buf d.scanFrom

theorem ChunkedDecoder.Ok.append {d : ChunkedDecoder} {buf : Bytes} (h : d.Ok buf)
    (rest : Bytes) : d.Ok (buf ++ rest) := by
  unfold ChunkedDecoder.Ok at *
  split
  next hs =>
    rw [hs] at h
    exact ScannedTo.append h rest
  next hs =>
    rw [hs] at h
    exact h
  next hs =>
    rw [hs] at h
    exact h
  next hs =>
    rw [hs] at h
    exact ScannedTo.append h rest

/-- The reader has nothing more to do with these bytes: there are none, or they are part of
something that is not complete. -/
def Waiting (cfg : HttpConfig) (r : Reader) (buf : Bytes) : Prop :=
  buf = [] ∨ ∃ what, r.phase = .scan what [] ∧ runFrom (Reader.step cfg) r buf =
    { r with phase := .scan what buf, offset := r.offset + buf.length }

/-- A call of the decoder for a body of which `seen` bytes were taken before. -/
structure ChunkSim (cfg : HttpConfig) (view : ContentView) (seen : ℕ) (buf : Bytes) (r₀ : Reader)
    (p : ChunkPass) (r : Reader) : Prop where
  phase : r.phase = chunkPhase (cfg.httpMaxBodyBytes - (seen + p.bodyBytes)) view p.decoder.state
  offset : r.offset + p.buf.length = r₀.offset + buf.length
  length : p.buf.length + p.bodyBytes ≤ buf.length
  tokens : r.tokens = r₀.tokens ++ chunkTokens view r₀.offset p.chunks
  pending : r.pending = r₀.pending
  errors : r.errors = r₀.errors
  collected : p.collected = min p.bodyBytes (cfg.httpMaxBodyBytes - seen)
  decoder : p.decoder.Ok p.buf
  done : p.done = false
  failed : p.failed = false
  run : runFrom (Reader.step cfg) r p.buf = runFrom (Reader.step cfg) r₀ buf

/-- What a call leaves when the bytes are well formed. -/
structure ChunkEnd (cfg : HttpConfig) (view : ContentView) (seen : ℕ) (buf : Bytes) (r₀ : Reader)
    (p : ChunkPass) : Prop where
  failed : p.failed = false
  more : p.done = false → ∃ r, ChunkSim cfg view seen buf r₀ p r ∧ Waiting cfg r p.buf
  done : p.done = true → ∃ r : Reader, r.phase = .scan .header [] ∧
    r.offset + p.buf.length = r₀.offset + buf.length ∧
    r.tokens = r₀.tokens ++ chunkTokens view r₀.offset p.chunks ∧
    r.pending = r₀.pending ∧ r.errors = r₀.errors ∧
    runFrom (Reader.step cfg) r p.buf = runFrom (Reader.step cfg) r₀ buf

variable {cfg : HttpConfig} {view : ContentView} {seen : ℕ} {buf : Bytes} {r₀ r : Reader}
  {p : ChunkPass}

theorem Waiting.tokens (h : Waiting cfg r buf) :
    (runFrom (Reader.step cfg) r buf).tokens = r.tokens := by
  rcases h with rfl | ⟨what, -, hrun⟩
  · rfl
  · rw [hrun]

/-- Where the reader waits, the decoder gives nothing back. -/
theorem ChunkEnd.no_tokens (h : ChunkEnd cfg view seen buf r₀ p) (hw : Waiting cfg r₀ buf) :
    chunkTokens view r₀.offset p.chunks = [] := by
  obtain ⟨r, htokens, hrun⟩ : ∃ r : Reader,
      r.tokens = r₀.tokens ++ chunkTokens view r₀.offset p.chunks ∧
      runFrom (Reader.step cfg) r p.buf = runFrom (Reader.step cfg) r₀ buf := by
    cases hdone : p.done with
    | true =>
        obtain ⟨r, -, -, htokens, -, -, hrun⟩ := h.done hdone
        exact ⟨r, htokens, hrun⟩
    | false =>
        obtain ⟨r, hsim, -⟩ := h.more hdone
        exact ⟨r, hsim.tokens, hsim.run⟩
  have hle := (Reader.tokens_run cfg r p.buf).length_le
  rw [hrun, hw.tokens, htokens, List.length_append] at hle
  exact List.eq_nil_of_length_eq_zero (by omega)

/-- A round goes on, or the call ends, in step with the reader. -/
def ChunkTurns (cfg : HttpConfig) (view : ContentView) (seen : ℕ) (buf : Bytes) (r₀ : Reader) :
    Turn ChunkPass → Prop
  | .again p => ∃ r, ChunkSim cfg view seen buf r₀ p r
  | .stop p => ChunkEnd cfg view seen buf r₀ p

theorem ChunkSim.waits (h : ChunkSim cfg view seen buf r₀ p r) (hw : Waiting cfg r p.buf) :
    ChunkEnd cfg view seen buf r₀ p :=
  ⟨h.failed, fun _ ↦ ⟨r, h, hw⟩, fun hd ↦ by rw [h.done] at hd; cases hd⟩

/-- Bytes that the reader has collected but not completed. -/
theorem ChunkSim.open (h : ChunkSim cfg view seen buf r₀ p r) {what : Scan}
    (hok : (runFrom (Reader.step cfg) r₀ buf).phase ≠ .failed) (hphase : r.phase = .scan what [])
    (hopen : ∀ w, w <+: p.buf → w ≠ [] → ¬what.Complete w) :
    Waiting cfg r p.buf ∧ (p.buf ≠ [] → ¬what.Overflows cfg.httpMaxHeaderBytes p.buf) := by
  rw [← h.run] at hok
  obtain ⟨hscan, hbelow⟩ := Reader.run_open hphase hopen hok
  exact ⟨.inr ⟨what, hphase, hscan⟩, hbelow⟩

theorem ChunkSim.rescan (h : ChunkSim cfg view seen buf r₀ p r) {n : ℕ}
    (hn : ChunkedDecoder.Ok { p.decoder with scanFrom := n } p.buf) :
    ChunkSim cfg view seen buf r₀ { p with decoder.scanFrom := n } r :=
  ⟨h.phase, h.offset, h.length, h.tokens, h.pending, h.errors, h.collected, hn, h.done, h.failed,
    h.run⟩

/-- The reader takes `k` bytes that are not of the body, and so does the decoder. -/
theorem ChunkSim.skip (h : ChunkSim cfg view seen buf r₀ p r) {k : ℕ} (state : ChunkState)
    (hk : k ≤ p.buf.length)
    (hdecoder : ChunkedDecoder.Ok { state := state, scanFrom := 0 } (p.buf.drop k))
    {phase : Phase}
    (hphase : phase = chunkPhase (cfg.httpMaxBodyBytes - (seen + p.bodyBytes)) view state)
    (hrun : runFrom (Reader.step cfg) { r with phase := phase, offset := r.offset + k }
      (p.buf.drop k) = runFrom (Reader.step cfg) r p.buf) :
    ChunkSim cfg view seen buf r₀
      { p with buf := p.buf.drop k, decoder := { state := state, scanFrom := 0 } }
      { r with phase := phase, offset := r.offset + k } := by
  have hoffset := h.offset
  have hlength := h.length
  refine ⟨hphase, ?_, ?_, h.tokens, h.pending, h.errors, h.collected, hdecoder, h.done, h.failed,
    hrun.trans h.run⟩
  · simp only [List.length_drop]
    omega
  · simp only [List.length_drop]
    omega

theorem chunkTurns_size (h : ChunkSim cfg view seen buf r₀ p r)
    (hok : (runFrom (Reader.step cfg) r₀ buf).phase ≠ .failed)
    (hstate : p.decoder.state = .size) :
    ChunkTurns cfg view seen buf r₀ (p.turnSize cfg.httpMaxHeaderBytes) := by
  have hscan : ScannedTo crlf p.buf p.decoder.scanFrom := by
    have hdecoder := h.decoder
    rwa [ChunkedDecoder.Ok, hstate] at hdecoder
  have hphase := h.phase
  rw [hstate] at hphase
  unfold ChunkPass.turnSize
  split
  next hnone =>
    have habsent := findFrom_eq_none hscan hnone (by decide)
    obtain ⟨hwaiting, hbelow⟩ := h.open hok hphase fun w hw _ ↦
      Reader.not_suffix_of_absent habsent hw
    split
    next hlong =>
      exact absurd hlong (hbelow (List.ne_nil_of_length_pos (by omega)))
    next =>
      refine (h.rescan ?_).waits hwaiting
      rw [ChunkedDecoder.Ok, hstate]
      exact scannedTo_of_absent habsent (by decide)
  next pos hpos =>
    have hle := findCrlfFrom_le hpos
    obtain ⟨hoccurs, hfirst⟩ := findFrom_eq_some hscan hpos
    obtain ⟨hcomplete, hshort⟩ := Reader.shortest_of_first hoccurs hle hfirst
    rw [← h.run] at hok
    obtain ⟨hgood, hrun⟩ := Reader.run_close hphase (Nat.succ_pos _) hle hcomplete
      (fun q hq hne _ ↦ hshort q hq hne) hok
    have hline : (p.buf.take (pos + 2)).take ((p.buf.take (pos + 2)).length - 2) =
        p.buf.take pos := by
      rw [List.length_take, List.take_take]
      congr 1
      omega
    simp only [Reader.complete, hline] at hgood hrun
    dsimp only
    split
    next hbad =>
      rw [hbad] at hgood
      exact absurd rfl hgood
    next hzero =>
      rw [hzero] at hrun
      exact ⟨_, h.skip .trailers hle (scannedTo_zero _ _) rfl hrun⟩
    next n hn hsize =>
      obtain ⟨m, rfl⟩ := Nat.exists_eq_succ_of_ne_zero hn
      rw [hsize] at hrun
      exact ⟨_, h.skip (.data (m + 1)) hle ⟨Nat.succ_pos m, rfl⟩ rfl hrun⟩

theorem chunkTurns_dataCrlf (h : ChunkSim cfg view seen buf r₀ p r)
    (hok : (runFrom (Reader.step cfg) r₀ buf).phase ≠ .failed)
    (hstate : p.decoder.state = .dataCrlf) : ChunkTurns cfg view seen buf r₀ p.turnDataCrlf := by
  have hzero : p.decoder.scanFrom = 0 := by
    have hdecoder := h.decoder
    rwa [ChunkedDecoder.Ok, hstate] at hdecoder
  have hphase := h.phase
  rw [hstate] at hphase
  unfold ChunkPass.turnDataCrlf
  split
  next hshort =>
    have hopen : ∀ w, w <+: p.buf → w ≠ [] → ¬Scan.Complete (.dataEnd
        (cfg.httpMaxBodyBytes - (seen + p.bodyBytes)) view) w := by
      intro w hw _ hcomplete
      have hlen := hw.length_le
      have htwo : w.length = 2 := hcomplete
      omega
    exact h.waits (h.open hok hphase hopen).1
  next hlong =>
    have hle : 2 ≤ p.buf.length := not_lt.mp hlong
    have hlen : (p.buf.take 2).length = 2 := by rw [List.length_take]; omega
    rw [← h.run] at hok
    obtain ⟨hgood, hrun⟩ := Reader.run_close hphase (Nat.succ_pos _) hle hlen
      (fun q hq hne _ hcomplete ↦ hne (hq.eq_of_length (hcomplete.trans hlen.symm))) hok
    simp only [Reader.complete] at hgood hrun
    split
    next hbad =>
      rw [if_neg hbad] at hgood
      exact absurd rfl hgood
    next hcrlf =>
      rw [if_pos (not_not.mp hcrlf)] at hrun
      have hnext := h.skip .size hle (scannedTo_zero _ _) rfl hrun
      dsimp only
      rw [hzero]
      exact ⟨_, hnext⟩

theorem chunkTurns_trailers (h : ChunkSim cfg view seen buf r₀ p r)
    (hok : (runFrom (Reader.step cfg) r₀ buf).phase ≠ .failed)
    (hstate : p.decoder.state = .trailers) :
    ChunkTurns cfg view seen buf r₀ (p.turnTrailers cfg.httpMaxHeaderBytes) := by
  have hscan : ScannedTo doubleCrlf p.buf p.decoder.scanFrom := by
    have hdecoder := h.decoder
    rwa [ChunkedDecoder.Ok, hstate] at hdecoder
  have hphase := h.phase
  rw [hstate] at hphase
  have hoffset := h.offset
  have hdone : ∀ k, 0 < k → k ≤ p.buf.length → Scan.trailers.Complete (p.buf.take k) →
      (∀ q, q <+: p.buf.take k → q ≠ p.buf.take k → q ≠ [] → ¬Scan.trailers.Complete q) →
      ChunkTurns cfg view seen buf r₀
        (.stop { p with decoder := {}, done := true, buf := p.buf.drop k }) := by
    intro k hpos hle hcomplete hshort
    rw [← h.run] at hok
    obtain ⟨-, hrun⟩ := Reader.run_close hphase hpos hle hcomplete hshort hok
    refine ⟨h.failed, fun hd ↦ (by cases hd), fun _ ↦
      ⟨{ r with phase := .scan .header [], offset := r.offset + k }, rfl, ?_, h.tokens, h.pending,
        h.errors, hrun.trans h.run⟩⟩
    simp only [List.length_drop]
    omega
  unfold ChunkPass.turnTrailers
  split
  next hend =>
    have htwo : p.buf.take 2 = crlf := (List.prefix_iff_eq_take.mp hend).symm
    refine hdone 2 (by omega) hend.length_le (.inl htwo) fun q hq hne _ hcomplete ↦ ?_
    rcases hcomplete with hcrlf | hdouble
    · exact hne (hcrlf.trans htwo.symm)
    · have hlong := hdouble.length_le
      have hlen := hq.length_le
      rw [htwo] at hlen
      simp only [doubleCrlf, crlf, List.length_cons, List.length_nil] at hlong hlen
      omega
  next hnot =>
    have hnotcrlf : ∀ q, q <+: p.buf → q ≠ crlf := fun q hq hcrlf ↦ hnot (hcrlf ▸ hq)
    split
    next hnone =>
      have habsent := findFrom_eq_none hscan hnone (by decide)
      obtain ⟨hwaiting, hbelow⟩ := h.open hok hphase fun w hw _ hcomplete ↦
        hcomplete.elim (hnotcrlf w hw) (Reader.not_suffix_of_absent habsent hw)
      split
      next hlong =>
        exact absurd hlong (hbelow (List.ne_nil_of_length_pos (by omega)))
      next =>
        refine (h.rescan ?_).waits hwaiting
        rw [ChunkedDecoder.Ok, hstate]
        exact scannedTo_of_absent habsent (by decide)
    next pos hpos =>
      have hle := findDoubleCrlfFrom_le hpos
      obtain ⟨hoccurs, hfirst⟩ := findFrom_eq_some hscan hpos
      obtain ⟨hcomplete, hshort⟩ := Reader.shortest_of_first hoccurs hle hfirst
      refine hdone (pos + 4) (by omega) hle (.inr hcomplete) fun q hq hne _ hq' ↦ ?_
      exact hq'.elim (hnotcrlf q (hq.trans (List.take_prefix _ _))) (hshort q hq hne)

theorem chunkTokens_collect {chunks : List ChunkData} {base rel n : ℕ} {data : Bytes} :
    chunkTokens view base (if n = 0 then chunks else chunks ++ [ChunkData.mk rel (data.take n)]) =
      chunkTokens view base chunks ++ bodyTokens view (base + rel) (data.take n) := by
  split_ifs with hn
  · rw [hn, List.take_zero, bodyTokens_nil, List.append_nil]
  · simp [chunkTokens]

/-- The reader takes `k` bytes of the body, and so does the decoder. -/
theorem ChunkSim.take (h : ChunkSim cfg view seen buf r₀ p r)
    (hbound : seen + buf.length ≤ u64Max) {n k : ℕ} (state : ChunkState)
    (hphase : r.phase =
      .body (some n) (cfg.httpMaxBodyBytes - (seen + p.bodyBytes)) view true)
    (hk : 0 < k) (hkn : k ≤ n) (hkb : k ≤ p.buf.length)
    (hdecoder : ChunkedDecoder.Ok { state := state, scanFrom := 0 } (p.buf.drop k))
    (hstate : Phase.afterBody (some n) (cfg.httpMaxBodyBytes - (seen + p.bodyBytes)) view true k =
      chunkPhase (cfg.httpMaxBodyBytes - (seen + (p.bodyBytes + k))) view state) :
    ∃ r', ChunkSim cfg view seen buf r₀ { p with
      buf := p.buf.drop k
      decoder := { state := state, scanFrom := 0 }
      chunks := if min k (cfg.httpMaxBodyBytes - seen - p.collected) = 0 then p.chunks
        else p.chunks ++ [ChunkData.mk (buf.length - p.buf.length)
          (p.buf.take (min k (cfg.httpMaxBodyBytes - seen - p.collected)))]
      collected := if min k (cfg.httpMaxBodyBytes - seen - p.collected) = 0 then p.collected
        else satAdd p.collected (min k (cfg.httpMaxBodyBytes - seen - p.collected))
      bodyBytes := satAdd p.bodyBytes k } r' := by
  have hoffset := h.offset
  have hlength := h.length
  have hcollected := h.collected
  have hlen : (p.buf.take k).length = k := by
    rw [List.length_take]
    omega
  have hbody : p.buf.take k ≠ [] := fun hnil ↦ by
    rw [hnil, List.length_nil] at hlen
    omega
  have hrun := Reader.run_body cfg hphase hbody (by simpa [hlen] using hkn)
  rw [hlen] at hrun
  have hbytes : satAdd p.bodyBytes k = p.bodyBytes + k := satAdd_of_le (by omega)
  have hcapture : min k (cfg.httpMaxBodyBytes - seen - p.collected) =
      min (cfg.httpMaxBodyBytes - (seen + p.bodyBytes)) k := by omega
  have hmore : (if min k (cfg.httpMaxBodyBytes - seen - p.collected) = 0 then p.collected
      else satAdd p.collected (min k (cfg.httpMaxBodyBytes - seen - p.collected))) =
      min (p.bodyBytes + k) (cfg.httpMaxBodyBytes - seen) := by
    split_ifs with hnone
    · omega
    · rw [satAdd_of_le (by omega)]
      omega
  have htokens : bodyTokens view r.offset ((p.buf.take k).take
      (cfg.httpMaxBodyBytes - (seen + p.bodyBytes))) =
      bodyTokens view (r₀.offset + (buf.length - p.buf.length))
        (p.buf.take (min k (cfg.httpMaxBodyBytes - seen - p.collected))) := by
    rw [hcapture, List.take_take]
    congr 1
    omega
  refine ⟨runFrom (Reader.step cfg) r (p.buf.take k), ?_, ?_, ?_, ?_, ?_, ?_, ?_, hdecoder, h.done,
    h.failed, ?_⟩
  · rw [hrun, hbytes]
    exact hstate
  · rw [hrun, List.length_drop]
    dsimp only
    omega
  · simp only [List.length_drop, hbytes]
    omega
  · rw [hrun, chunkTokens_collect, ← List.append_assoc, ← h.tokens, htokens]
  · rw [hrun]
    exact h.pending
  · rw [hrun]
    exact h.errors
  · rw [hmore, hbytes]
  · rw [← runFrom_append, List.take_append_drop]
    exact h.run

theorem chunkTurns_data {n : ℕ} (h : ChunkSim cfg view seen buf r₀ p r)
    (hbound : seen + buf.length ≤ u64Max) (hstate : p.decoder.state = .data n) :
    ChunkTurns cfg view seen buf r₀
      (p.turnData buf.length (cfg.httpMaxBodyBytes - seen) n) := by
  have hdecoder := h.decoder
  rw [ChunkedDecoder.Ok, hstate] at hdecoder
  obtain ⟨hn, hzero⟩ := hdecoder
  have hphase := h.phase
  rw [hstate] at hphase
  unfold ChunkPass.turnData
  split
  next hempty => exact h.waits (.inl hempty)
  next hne =>
    have hpos : 0 < p.buf.length := List.length_pos_of_ne_nil hne
    dsimp only
    rw [hzero]
    split
    next hlast =>
      refine h.take hbound .dataCrlf hphase (by omega) (min_le_left _ _) (min_le_right _ _) rfl ?_
      simp only [Phase.afterBody, chunkPhase]
      rw [if_pos (by omega), if_pos trivial]
      congr 2
      omega
    next hmore =>
      obtain ⟨r', hsim⟩ := h.take hbound (.data (n - min n p.buf.length)) hphase (by omega)
        (min_le_left _ _) (min_le_right _ _) ⟨by omega, rfl⟩ (by
          simp only [Phase.afterBody, chunkPhase]
          rw [if_neg (by omega)]
          congr 1
          omega)
      refine hsim.waits (.inl ?_)
      rw [List.drop_eq_nil_iff]
      omega

theorem chunkTurns_turn (h : ChunkSim cfg view seen buf r₀ p r)
    (hbound : seen + buf.length ≤ u64Max)
    (hok : (runFrom (Reader.step cfg) r₀ buf).phase ≠ .failed) :
    ChunkTurns cfg view seen buf r₀
      (p.turn buf.length cfg.httpMaxHeaderBytes (cfg.httpMaxBodyBytes - seen)) := by
  unfold ChunkPass.turn
  split
  next hstate => exact chunkTurns_size h hok hstate
  next hstate => exact chunkTurns_data h hbound hstate
  next hstate => exact chunkTurns_dataCrlf h hok hstate
  next hstate => exact chunkTurns_trailers h hok hstate

/-- A call of the decoder at its start. -/
theorem chunkSim_start {d : ChunkedDecoder} (hd : d.Ok buf)
    (hphase : r₀.phase = chunkPhase (cfg.httpMaxBodyBytes - seen) view d.state) :
    ChunkSim cfg view seen buf r₀ { decoder := d, buf := buf } r₀ :=
  ⟨hphase, rfl, le_rfl, by simp [chunkTokens], rfl, rfl, (Nat.zero_min _).symm, hd, rfl, rfl, rfl⟩

/-- A call of the decoder on bytes that are well formed. -/
theorem chunkEnd_consume {d : ChunkedDecoder} (hd : d.Ok buf)
    (hphase : r₀.phase = chunkPhase (cfg.httpMaxBodyBytes - seen) view d.state)
    (hbound : seen + buf.length ≤ u64Max)
    (hok : (runFrom (Reader.step cfg) r₀ buf).phase ≠ .failed) :
    ∃ p, ChunkEnd cfg view seen buf r₀ p ∧
      d.consume buf cfg.httpMaxHeaderBytes (cfg.httpMaxBodyBytes - seen) = p.outcome buf.length := by
  obtain ⟨p, hleaves, hp⟩ :=
    d.leaves_consume buf cfg.httpMaxHeaderBytes (cfg.httpMaxBodyBytes - seen)
  have hstart := chunkSim_start hd hphase
  refine ⟨p, ?_, hp⟩
  refine hleaves.rule (I := fun p ↦ ∃ r, ChunkSim cfg view seen buf r₀ p r) ?_ ?_ ⟨r₀, hstart⟩
  · rintro s s' ⟨r, h⟩ hagain
    have hnext := chunkTurns_turn h hbound hok
    rwa [hagain] at hnext
  · rintro s s' ⟨r, h⟩ hstop
    have hnext := chunkTurns_turn h hbound hok
    rwa [hstop] at hnext

end Chunks

end Bazalt.Http
