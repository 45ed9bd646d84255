import Bazalt.Http.ChunkedEncoding
import Bazalt.Http.Segmentation
import Bazalt.Http.Watch
import Mathlib.Data.List.DropRight

/-!
# Chunked bodies that break

A call of the chunked decoder that meets an invalid encoding gives nothing back.  What it
took before is lost, and what earlier calls gave stays.
-/

namespace Bazalt.Http

open Lib

/-- With the byte `x` the chunked encoding is invalid: a chunk-size line has no size, or there
is no line end behind the data of a chunk. -/
def Phase.Breaks (x : UInt8) : Phase → Prop
  | .scan (.size _ _) acc => crlf <:+ acc ++ [x] ∧ chunkSize (acc.take (acc.length - 1)) = none
  | .scan (.dataEnd _ _) acc => acc.length = 1 ∧ acc ++ [x] ≠ crlf
  | _ => False

instance (x : UInt8) : ∀ phase : Phase, Decidable (phase.Breaks x)
  | .scan (.size _ _) _ => inferInstanceAs (Decidable (_ ∧ _))
  | .scan (.dataEnd _ _) _ => inferInstanceAs (Decidable (_ ∧ _))
  | .scan .header _ | .scan .trailers _ | .body _ _ _ _ | .tunnel | .failed => .isFalse id

section Decoder

variable {cfg : HttpConfig} {view : ContentView} {seen n : ℕ} {buf : Bytes} {r₀ r : Reader}
  {p p' : ChunkPass} {x : UInt8} {state : ChunkState}

theorem not_failed_of_breaks {phase : Phase} (h : phase.Breaks x) : phase ≠ .failed := by
  rintro rfl
  exact h

/-- The reader breaks only inside of a chunk-size line or behind the data of a chunk. -/
theorem Waiting.breaks (h : Waiting cfg r buf) (hphase : r.phase = chunkPhase n view state)
    (hbreak : (runFrom (Reader.step cfg) r buf).phase.Breaks x) :
    state = .size ∧ crlf <:+ buf ++ [x] ∧ chunkSize (buf.take (buf.length - 1)) = none ∨
      state = .dataCrlf ∧ buf.length = 1 ∧ buf ++ [x] ≠ crlf := by
  have hscan : ∃ what, chunkPhase n view state = .scan what [] ∧ (Phase.scan what buf).Breaks x := by
    rcases h with rfl | ⟨what, hwhat, hrun⟩
    · rw [runFrom_nil, hphase] at hbreak
      cases state with
      | size => exact ⟨_, rfl, hbreak⟩
      | data n => exact hbreak.elim
      | dataCrlf => exact ⟨_, rfl, hbreak⟩
      | trailers => exact hbreak.elim
    · rw [hrun] at hbreak
      exact ⟨what, hphase.symm.trans hwhat, hbreak⟩
  obtain ⟨what, hwhat, hbreaks⟩ := hscan
  cases state with
  | size =>
      obtain ⟨rfl, -⟩ := Phase.scan.inj hwhat
      exact .inl ⟨rfl, hbreaks⟩
  | data n => cases hwhat
  | dataCrlf =>
      obtain ⟨rfl, -⟩ := Phase.scan.inj hwhat
      exact .inr ⟨rfl, hbreaks⟩
  | trailers =>
      obtain ⟨rfl, -⟩ := Phase.scan.inj hwhat
      exact hbreaks.elim

/-- A line end that is completed by its last byte is found there. -/
theorem findCrlfFrom_last {n : ℕ} (hscan : ScannedTo crlf buf n)
    (habsent : ∀ i, ¬OccursAt crlf buf i) (hend : crlf <:+ buf ++ [x]) (ys : Bytes) :
    findCrlfFrom (buf ++ x :: ys) n = some (buf.length - 1) ∧ 0 < buf.length := by
  have hlong := hend.length_le
  simp only [crlf, List.length_cons, List.length_nil, List.length_append] at hlong
  obtain ⟨before, hbefore⟩ := hend
  have hlen := congrArg List.length hbefore
  simp only [crlf, List.length_append, List.length_cons, List.length_nil] at hlen
  have hoccurs : OccursAt crlf (buf ++ [x]) (buf.length - 1) := by
    rw [OccursAt, ← hbefore, show buf.length - 1 = before.length by omega, List.drop_left]
  have hfirst : ∀ i < buf.length - 1, ¬OccursAt crlf (buf ++ [x]) i := by
    intro i hi hearly
    refine habsent i ((occursAt_append_right ?_).mp hearly)
    simp only [crlf, List.length_cons, List.length_nil]
    omega
  have hfind := findFrom_append (hscan.append [x]) (by decide)
    (findFrom_of_first (hscan.append [x]) (by decide) hoccurs hfirst) ys
  rw [List.append_assoc] at hfind
  exact ⟨hfind, by omega⟩

/-- A round that waits for the end of a chunk-size line fails when the line has no size. -/
theorem ChunkPass.turnSize_breaks {maxLine : ℕ} (hok : ScannedTo crlf p.buf p.decoder.scanFrom)
    (hstop : p.turnSize maxLine = .stop p') (hfine : p'.failed = false)
    (hline : crlf <:+ p'.buf ++ [x]) (hbad : chunkSize (p'.buf.take (p'.buf.length - 1)) = none)
    (ys : Bytes) :
    ∃ q, (p.extend (x :: ys)).turnSize maxLine = .stop q ∧ q.failed = true ∧
      q.buf.length ≤ p'.buf.length + (x :: ys).length := by
  simp only [ChunkPass.turnSize] at hstop ⊢
  split at hstop
  next hnone =>
    split at hstop
    · obtain rfl := Turn.stop.inj hstop
      cases hfine
    · obtain rfl := Turn.stop.inj hstop
      obtain ⟨hfind, hpos⟩ := findCrlfFrom_last hok (findFrom_eq_none hok hnone (by decide))
        hline ys
      simp only [ChunkPass.extend] at hfind ⊢
      rw [hfind]
      have htake : (p.buf ++ x :: ys).take (p.buf.length - 1) =
          p.buf.take (p.buf.length - 1) := List.take_append_of_le_length (by omega)
      simp only [htake]
      dsimp only at hbad
      rw [hbad]
      refine ⟨_, rfl, rfl, ?_⟩
      simp only [ChunkPass.fail, List.length_drop, List.length_append]
      omega
  next pos hpos =>
    split at hstop
    · obtain rfl := Turn.stop.inj hstop
      cases hfine
    · cases hstop
    · cases hstop

/-- A round that waits for the line end behind a chunk fails when another byte comes. -/
theorem ChunkPass.turnDataCrlf_breaks (hstop : p.turnDataCrlf = .stop p')
    (hfine : p'.failed = false) (hone : p'.buf.length = 1) (hbad : p'.buf ++ [x] ≠ crlf)
    (ys : Bytes) :
    ∃ q, (p.extend (x :: ys)).turnDataCrlf = .stop q ∧ q.failed = true ∧
      q.buf.length ≤ p'.buf.length + (x :: ys).length := by
  simp only [ChunkPass.turnDataCrlf] at hstop ⊢
  split at hstop
  · obtain rfl := Turn.stop.inj hstop
    have hlong : ¬(p.extend (x :: ys)).buf.length < 2 := by
      simp only [ChunkPass.extend, List.length_append, List.length_cons]
      omega
    have htwo : (p.extend (x :: ys)).buf.take 2 = p.buf ++ [x] := by
      rw [ChunkPass.extend, List.take_append, hone, List.take_of_length_le (by omega)]
      rfl
    rw [if_neg hlong, htwo, if_pos hbad]
    refine ⟨_, rfl, rfl, ?_⟩
    simp only [ChunkPass.fail, ChunkPass.extend, List.length_append, le_refl]
  · split at hstop
    · obtain rfl := Turn.stop.inj hstop
      cases hfine
    · cases hstop

/-- A round that stops without an error stays in its part of the encoding. -/
theorem ChunkPass.state_of_stop {initialLen maxLine maxCollect : ℕ}
    (hstop : p.turn initialLen maxLine maxCollect = .stop p') (hfine : p'.failed = false)
    (hdone : p'.done = false) :
    p'.decoder.state = p.decoder.state ∨
      ∃ m n, p.decoder.state = .data m ∧ p'.decoder.state = .data n := by
  unfold ChunkPass.turn at hstop
  cases hstate : p.decoder.state with
  | size =>
      rw [hstate] at hstop
      simp only [ChunkPass.turnSize] at hstop
      split at hstop
      · split at hstop
        · obtain rfl := Turn.stop.inj hstop
          cases hfine
        · obtain rfl := Turn.stop.inj hstop
          exact .inl hstate
      · split at hstop
        · obtain rfl := Turn.stop.inj hstop
          cases hfine
        · cases hstop
        · cases hstop
  | data n =>
      rw [hstate] at hstop
      simp only [ChunkPass.turnData] at hstop
      by_cases hempty : p.buf = []
      · rw [if_pos hempty] at hstop
        obtain rfl := Turn.stop.inj hstop
        exact .inl hstate
      · rw [if_neg hempty] at hstop
        split at hstop
        · cases hstop
        · obtain rfl := Turn.stop.inj hstop
          exact .inr ⟨n, _, rfl, rfl⟩
  | dataCrlf =>
      rw [hstate] at hstop
      simp only [ChunkPass.turnDataCrlf] at hstop
      split at hstop
      · obtain rfl := Turn.stop.inj hstop
        exact .inl hstate
      · split at hstop
        · obtain rfl := Turn.stop.inj hstop
          cases hfine
        · cases hstop
  | trailers =>
      rw [hstate] at hstop
      simp only [ChunkPass.turnTrailers] at hstop
      split at hstop
      · obtain rfl := Turn.stop.inj hstop
        cases hdone
      · split at hstop
        · split at hstop
          · obtain rfl := Turn.stop.inj hstop
            cases hfine
          · obtain rfl := Turn.stop.inj hstop
            exact .inl hstate
        · obtain rfl := Turn.stop.inj hstop
          cases hdone

/-- The round that waits for the rest of a piece fails when the rest is invalid. -/
theorem ChunkSim.turn_breaks (h : ChunkSim cfg view seen buf r₀ p r) {maxCollect : ℕ}
    (hstop : p.turn buf.length cfg.httpMaxHeaderBytes maxCollect = .stop p')
    (hend : ChunkEnd cfg view seen buf r₀ p') (hdone : p'.done = false)
    (hbreak : (runFrom (Reader.step cfg) r₀ buf).phase.Breaks x) (ys : Bytes) :
    ∃ q, (p.extend (x :: ys)).turn (buf.length + (x :: ys).length) cfg.httpMaxHeaderBytes
        maxCollect = .stop q ∧ q.failed = true ∧
      q.buf.length ≤ p'.buf.length + (x :: ys).length := by
  obtain ⟨r', hsim', hwaiting⟩ := hend.more hdone
  rw [← hsim'.run] at hbreak
  have hcases := hwaiting.breaks hsim'.phase hbreak
  have hok := h.decoder
  have hsame : p'.decoder.state = p.decoder.state := by
    rcases ChunkPass.state_of_stop hstop hend.failed hdone with hsame | ⟨m, n, -, hdata⟩
    · exact hsame
    · rcases hcases with ⟨hother, -⟩ | ⟨hother, -⟩ <;> cases hdata.symm.trans hother
  unfold ChunkPass.turn at hstop ⊢
  unfold ChunkedDecoder.Ok at hok
  rcases hcases with ⟨hsize, hline, hbad⟩ | ⟨hcrlf, hone, hbad⟩
  · have hstate := hsame.symm.trans hsize
    rw [hstate] at hstop hok
    rw [show (p.extend (x :: ys)).decoder.state = .size from hstate]
    exact ChunkPass.turnSize_breaks hok hstop hend.failed hline hbad ys
  · have hstate := hsame.symm.trans hcrlf
    rw [hstate] at hstop
    rw [show (p.extend (x :: ys)).decoder.state = .dataCrlf from hstate]
    exact ChunkPass.turnDataCrlf_breaks hstop hend.failed hone hbad ys

/-- A call of the decoder on bytes that are well formed, and the call with the byte that makes
them invalid. -/
theorem consume_breaks {d : ChunkedDecoder} (hd : d.Ok buf)
    (hphase : r₀.phase = chunkPhase (cfg.httpMaxBodyBytes - seen) view d.state)
    (hbound : seen + buf.length ≤ u64Max)
    (hbreak : (runFrom (Reader.step cfg) r₀ buf).phase.Breaks x) (ys : Bytes) :
    ∃ p, ChunkEnd cfg view seen buf r₀ p ∧
      d.consume buf cfg.httpMaxHeaderBytes (cfg.httpMaxBodyBytes - seen) = p.outcome buf.length ∧
      (p.done = false →
        (d.consume (buf ++ x :: ys) cfg.httpMaxHeaderBytes
          (cfg.httpMaxBodyBytes - seen)).result = none ∧
        (d.consume (buf ++ x :: ys) cfg.httpMaxHeaderBytes
          (cfg.httpMaxBodyBytes - seen)).buf.length ≤ p.buf.length + (x :: ys).length) := by
  have hok := not_failed_of_breaks hbreak
  obtain ⟨p, hleaves, hp⟩ :=
    d.leaves_consume buf cfg.httpMaxHeaderBytes (cfg.httpMaxBodyBytes - seen)
  obtain ⟨q, hleaves', hq⟩ :=
    d.leaves_consume (buf ++ x :: ys) cfg.httpMaxHeaderBytes (cfg.httpMaxBodyBytes - seen)
  have hfails : ∀ p p', Leaves (ChunkPass.turn buf.length cfg.httpMaxHeaderBytes
      (cfg.httpMaxBodyBytes - seen)) p p' → (∃ r, ChunkSim cfg view seen buf r₀ p r) →
      ChunkEnd cfg view seen buf r₀ p' ∧ (p'.done = false → ∃ q,
        Leaves (ChunkPass.turn (buf.length + (x :: ys).length) cfg.httpMaxHeaderBytes
          (cfg.httpMaxBodyBytes - seen)) (p.extend (x :: ys)) q ∧ q.failed = true ∧
        q.buf.length ≤ p'.buf.length + (x :: ys).length) := by
    intro p p' hp
    induction hp with
    | stop hs =>
        rintro ⟨r, hsim⟩
        have hend := chunkTurns_turn hsim hbound hok
        rw [hs] at hend
        refine ⟨hend, fun hdone ↦ ?_⟩
        obtain ⟨q, hturn, hq⟩ := hsim.turn_breaks hs hend hdone hbreak ys
        exact ⟨q, .stop hturn, hq⟩
    | again hs _ ih =>
        rintro ⟨r, hsim⟩
        have hnext := chunkTurns_turn hsim hbound hok
        rw [hs] at hnext
        obtain ⟨hend, hbreaks⟩ := ih hnext
        refine ⟨hend, fun hdone ↦ ?_⟩
        obtain ⟨q, hq, hfailed⟩ := hbreaks hdone
        have hext := turn_extend buf.length cfg.httpMaxHeaderBytes (cfg.httpMaxBodyBytes - seen)
          hsim.decoder hsim.done (x :: ys)
        rw [hs] at hext
        exact ⟨q, .again hext hq, hfailed⟩
  obtain ⟨hend, hbreaks⟩ := hfails _ p hleaves ⟨r₀, chunkSim_start hd hphase⟩
  refine ⟨p, hend, hp, fun hdone ↦ ?_⟩
  obtain ⟨q', hq', hfailed, hlen⟩ := hbreaks hdone
  rw [List.length_append] at hleaves'
  obtain rfl := hleaves'.unique hq'
  rw [hq]
  simp only [ChunkPass.outcome, if_pos hfailed]
  exact ⟨trivial, hlen⟩

end Decoder

section Tokens

def Token.offset : Token → ℕ
  | .header _ _ offset _ => offset
  | .body _ offset _ => offset

def Token.isBody : Token → Bool
  | .header _ _ _ _ => false
  | .body _ _ _ => true

/-- The bytes of the body of the last message. -/
def messageBody (ts : List Token) : List Token := ts.rtakeWhile Token.isBody

theorem messageBody_append {ts more : List Token} (h : ∀ t ∈ more, t.isBody = true) :
    messageBody (ts ++ more) = messageBody ts ++ more := by
  induction more using List.reverseRecOn with
  | nil => rw [List.append_nil, List.append_nil]
  | append_singleton more t ih =>
      have ht : t.isBody = true := h t (by simp)
      have hrest := ih fun q hq ↦ h q (by simp [hq])
      rw [messageBody] at hrest ⊢
      rw [← List.append_assoc, List.rtakeWhile_concat_pos _ _ _ ht, hrest, List.append_assoc]

theorem mem_of_mem_messageBody {ts : List Token} {t : Token} (h : t ∈ messageBody ts) : t ∈ ts :=
  (List.rtakeWhile_suffix _ _).subset h

theorem messageBody_header (ts : List Token) (view : ContentView) (record : HttpRecord)
    (offset : ℕ) (data : Bytes) :
    messageBody (ts ++ [.header view record offset data]) = [] :=
  List.rtakeWhile_concat_neg _ _ _ Bool.false_ne_true

/-- Bytes of bodies stand in the order of the stream. -/
def Token.Before (t t' : Token) : Prop :=
  t.isBody = true → t'.isBody = true → t.offset < t'.offset

theorem mem_bodyTokens {view : ContentView} {offset : ℕ} {data : Bytes} {t : Token}
    (h : t ∈ bodyTokens view offset data) :
    t.isBody = true ∧ offset ≤ t.offset ∧ t.offset < offset + data.length := by
  obtain ⟨⟨b, i⟩, hi, rfl⟩ := List.mem_map.mp h
  obtain ⟨hle, hlt, -⟩ := List.mem_zipIdx hi
  exact ⟨rfl, hle, by simp only [Token.offset]; omega⟩

namespace Reader

variable {cfg : HttpConfig}

/-- The bytes of bodies that a step reads are at the place of the reader. -/
theorem step_tokens (cfg : HttpConfig) (r : Reader) (b : UInt8) :
    r.offset ≤ (r.step cfg b).offset ∧ ∃ new, (r.step cfg b).tokens = r.tokens ++ new ∧
      new.Pairwise Token.Before ∧
      ∀ t ∈ new, t.isBody = true → r.offset ≤ t.offset ∧ t.offset < (r.step cfg b).offset := by
  have hnone : ∀ r' : Reader, r.offset ≤ r'.offset → r'.tokens = r.tokens →
      r.offset ≤ r'.offset ∧ ∃ new, r'.tokens = r.tokens ++ new ∧ new.Pairwise Token.Before ∧
        ∀ t ∈ new, t.isBody = true → r.offset ≤ t.offset ∧ t.offset < r'.offset :=
    fun r' hle htokens ↦ ⟨hle, [], by rw [htokens, List.append_nil], .nil, by simp⟩
  unfold step
  split
  next what acc hphase =>
    dsimp only
    split
    · cases what with
      | header =>
          simp only [complete, onHeader]
          split
          · exact hnone _ (Nat.le_succ _) rfl
          · refine ⟨Nat.le_succ _, _, rfl, List.pairwise_singleton _ _, fun t ht hbody ↦ ?_⟩
            rw [List.mem_singleton.mp ht] at hbody
            cases hbody
      | size capture view =>
          simp only [complete]
          split <;> exact hnone _ (Nat.le_succ _) rfl
      | dataEnd capture view =>
          simp only [complete]
          split <;> exact hnone _ (Nat.le_succ _) rfl
      | trailers => exact hnone _ (Nat.le_succ _) rfl
    · split <;> exact hnone _ (Nat.le_succ _) rfl
  next remaining capture view chunked hphase =>
    refine ⟨Nat.le_succ _, _, rfl, ?_, fun t ht _ ↦ ?_⟩
    · split
      · exact .nil
      · exact List.pairwise_singleton _ _
    split at ht
    · cases ht
    · rw [List.mem_singleton.mp ht]
      exact ⟨le_rfl, Nat.lt_succ_self _⟩
  · exact hnone r le_rfl rfl
  · exact hnone r le_rfl rfl

theorem run_tokens (cfg : HttpConfig) (r : Reader) (bs : Bytes) :
    r.offset ≤ (runFrom (step cfg) r bs).offset ∧
      ∃ new, (runFrom (step cfg) r bs).tokens = r.tokens ++ new ∧ new.Pairwise Token.Before ∧
        ∀ t ∈ new, t.isBody = true →
          r.offset ≤ t.offset ∧ t.offset < (runFrom (step cfg) r bs).offset := by
  induction bs generalizing r with
  | nil => exact ⟨le_rfl, [], (List.append_nil _).symm, .nil, by simp⟩
  | cons b bs ih =>
      obtain ⟨hle, new, htokens, hordered, hnew⟩ := step_tokens cfg r b
      obtain ⟨hle', later, htokens', hordered', hlater⟩ := ih (r.step cfg b)
      rw [runFrom_cons]
      refine ⟨hle.trans hle', new ++ later, ?_, ?_, fun t ht hbody ↦ ?_⟩
      · rw [htokens', htokens, List.append_assoc]
      · refine List.pairwise_append.mpr ⟨hordered, hordered', fun t ht t' ht' hbody hbody' ↦ ?_⟩
        exact (hnew t ht hbody).2.trans_le (hlater t' ht' hbody').1
      · rcases List.mem_append.mp ht with ht | ht
        · obtain ⟨hfrom, hto⟩ := hnew t ht hbody
          exact ⟨hfrom, hto.trans_le hle'⟩
        · obtain ⟨hfrom, hto⟩ := hlater t ht hbody
          exact ⟨hle.trans hfrom, hto⟩

/-- A reader that reads on is where its bytes end. -/
theorem offset_run {r : Reader} {bs : Bytes} (hok : (runFrom (step cfg) r bs).phase ≠ .failed)
    (hhttp : (runFrom (step cfg) r bs).phase ≠ .tunnel) :
    (runFrom (step cfg) r bs).offset = r.offset + bs.length := by
  induction bs generalizing r with
  | nil => rfl
  | cons b bs ih =>
      have hfirst : (r.step cfg b).offset = r.offset + 1 := by
        unfold step
        split
        · dsimp only
          split
          next what acc _ _ =>
            cases what with
            | header =>
                simp only [complete, onHeader]
                split <;> rfl
            | size capture view =>
                simp only [complete]
                split <;> rfl
            | dataEnd capture view =>
                simp only [complete]
                split <;> rfl
            | trailers => rfl
          · split <;> rfl
        · rfl
        next hphase =>
          rw [run_tunnel hphase] at hhttp
          exact absurd hphase hhttp
        next hphase =>
          rw [run_failed hphase] at hok
          exact absurd hphase hok
      rw [runFrom_cons] at hok hhttp ⊢
      rw [ih hok hhttp, hfirst, List.length_cons]
      omega

end Reader

end Tokens

section Call

variable {cfg : HttpConfig} {c : StreamChunk} {d : Direction} {tokens : List Token} {errors : ℕ}
  {f f' g : Feed} {r e : Reader} {x : UInt8}

def Feed.extend (f : Feed) (v : Bytes) : Feed :=
  { f with parser.buffer := f.parser.buffer ++ v }

theorem onHeader_extend {offset : ℕ} {header : Bytes} {parsed : ParsedHeader}
    (h : Feed.onHeader cfg c offset header parsed f = .again f') (v : Bytes) :
    Feed.onHeader cfg c offset header parsed (f.extend v) = .again (f'.extend v) := by
  unfold Feed.onHeader at h ⊢
  dsimp only at h ⊢
  have hdirection : Feed.messageDirection c parsed (f.extend v) =
      Feed.messageDirection c parsed f := rfl
  have hpending : (f.extend v).pendingRequests = f.pendingRequests := rfl
  rw [hdirection, hpending]
  split at h
  · cases h
  next htunnel =>
    rw [if_neg htunnel]
    split at h
    · obtain rfl := Turn.again.inj h
      rfl
    · obtain rfl := Turn.again.inj h
      rfl

theorem turnHeaders_extend (hsynced : f.parser.synced = true)
    (hscan : ScannedTo doubleCrlf f.parser.buffer f.parser.headerScanFrom)
    (h : Feed.turnHeaders cfg c f = .again f') (v : Bytes) :
    Feed.turnHeaders cfg c (f.extend v) = .again (f'.extend v) := by
  have hready : f.parser.ready = (f.parser, true) := by
    rw [HttpStreamParser.ready, if_pos hsynced]
  have hready' : (f.extend v).parser.ready = ((f.extend v).parser, true) := by
    rw [HttpStreamParser.ready, if_pos (show (f.extend v).parser.synced = true from hsynced)]
  unfold Feed.turnHeaders at h ⊢
  simp only [hready, hready', Bool.true_eq_false, if_false] at h ⊢
  cases hfind : findDoubleCrlfFrom f.parser.buffer f.parser.headerScanFrom with
  | none =>
      rw [hfind] at h
      dsimp only at h
      split at h <;> cases h
  | some finish =>
      have hle := findDoubleCrlfFrom_le hfind
      have hmore : findDoubleCrlfFrom (f.extend v).parser.buffer (f.extend v).parser.headerScanFrom =
          some finish := findFrom_append hscan (by decide) hfind v
      have htake : (f.extend v).parser.buffer.take (finish + 4) =
          f.parser.buffer.take (finish + 4) := List.take_append_of_le_length hle
      have hparser : { (f.extend v).parser.advance (finish + 4) with headerScanFrom := 0 } =
          (Feed.extend { f with
            parser := { f.parser.advance (finish + 4) with headerScanFrom := 0 } } v).parser := by
        simp only [Feed.extend, HttpStreamParser.advance, List.drop_append_of_le_length hle]
      rw [hfind] at h
      rw [hmore]
      dsimp only at h ⊢
      rw [htake, hparser]
      cases hparsed : cfg.parseHeader (f.parser.buffer.take (finish + 4)) with
      | none =>
          rw [hparsed] at h
          obtain rfl := Turn.again.inj h
          rfl
      | some parsed =>
          rw [hparsed] at h
          exact onHeader_extend h v

/-- Before the invalid byte arrives the parser is where the reader is, at the first message or
right behind the header block of a later one. -/
def Approaches (cfg : HttpConfig) (d : Direction) (tokens : List Token) (errors : ℕ) (e : Reader)
    (f : Feed) : Prop :=
  ∃ r, Sim cfg d tokens errors f r ∧ runFrom (Reader.step cfg) r f.parser.buffer = e ∧
    (f.parser.state ≠ .headers → f.report.events = [] ∨ messageBody r.tokens = [])

theorem scan_of_breaks {phase : Phase} (h : phase.Breaks x) :
    ∃ what acc, phase = .scan what acc ∧ what ≠ .header := by
  unfold Phase.Breaks at h
  split at h
  · exact ⟨_, _, rfl, Scan.noConfusion⟩
  · exact ⟨_, _, rfl, Scan.noConfusion⟩
  · exact h.elim

def BodyState.isChunked : BodyState → Bool
  | .chunked _ _ _ _ _ => true
  | _ => false

theorem header_of_phaseOf {state : BodyState} {what : Scan} {acc : Bytes}
    (hstate : state.isChunked = false) (h : phaseOf cfg state = .scan what acc) : what = .header := by
  cases state with
  | headers => exact (Phase.scan.inj h).1.symm
  | fixed remaining info compressed => cases h
  | skipFixed remaining captureRemaining info => cases h
  | chunked info decoder compressed bodySeen captureBody => cases hstate
  | untilClose info compressed bodySeen captureBody => cases h

/-- Where a round stops outside of a chunked body, no chunk is open. -/
theorem not_breaks_of_stop (h : SimEnd cfg d tokens errors e f)
    (hstate : f.parser.state.isChunked = false) : ¬e.phase.Breaks x := by
  intro hbreak
  obtain ⟨what, acc, hscan, hwhat⟩ := scan_of_breaks hbreak
  cases hmode : f.mode with
  | tunnel =>
      rw [(h.tunnel hmode).1] at hscan
      cases hscan
  | http =>
      obtain ⟨r, hsim, hw, rfl⟩ := h.http hmode
      rcases hw with hnil | ⟨what', hscan', hrun⟩
      · rw [hnil, runFrom_nil, hsim.phase] at hscan
        exact hwhat (header_of_phaseOf hstate hscan)
      · rw [hrun] at hscan
        obtain ⟨rfl, -⟩ := Phase.scan.inj hscan
        rw [hsim.phase] at hscan'
        exact hwhat (header_of_phaseOf hstate hscan')

theorem turnFixed_extend {remaining : ℕ} {info : MessageInfo} {compressed : Bytes}
    (h : Feed.turnFixed cfg f remaining info compressed = .again f') (v : Bytes) :
    Feed.turnFixed cfg (f.extend v) remaining info compressed = .again (f'.extend v) := by
  unfold Feed.turnFixed at h ⊢
  dsimp only at h ⊢
  by_cases hempty : f.parser.buffer = []
  · rw [if_pos hempty] at h
    cases h
  · have hmore : (f.extend v).parser.buffer ≠ [] := fun hnil ↦
      hempty (List.append_eq_nil_iff.mp hnil).1
    have hlen : (f.extend v).parser.buffer.length = f.parser.buffer.length + v.length :=
      List.length_append
    rw [if_neg hempty] at h
    rw [if_neg hmore]
    by_cases hlast : remaining - min remaining f.parser.buffer.length = 0
    · have htake : min remaining (f.extend v).parser.buffer.length =
          min remaining f.parser.buffer.length := by omega
      rw [if_pos hlast] at h
      rw [htake, if_pos hlast, ← Turn.again.inj h]
      simp only [Feed.extend, Feed.emit, HttpStreamParser.advance,
        List.take_append_of_le_length (min_le_right _ _),
        List.drop_append_of_le_length (min_le_right _ _)]
    · rw [if_neg hlast] at h
      cases h

theorem turnSkipFixed_extend {remaining captureRemaining : ℕ} {info : MessageInfo}
    (h : Feed.turnSkipFixed f remaining captureRemaining info = .again f') (v : Bytes) :
    Feed.turnSkipFixed (f.extend v) remaining captureRemaining info = .again (f'.extend v) := by
  unfold Feed.turnSkipFixed at h ⊢
  dsimp only at h ⊢
  by_cases hempty : f.parser.buffer = []
  · rw [if_pos hempty] at h
    cases h
  · have hmore : (f.extend v).parser.buffer ≠ [] := fun hnil ↦
      hempty (List.append_eq_nil_iff.mp hnil).1
    have hlen : (f.extend v).parser.buffer.length = f.parser.buffer.length + v.length :=
      List.length_append
    rw [if_neg hempty] at h
    rw [if_neg hmore]
    by_cases hlast : remaining - min remaining f.parser.buffer.length = 0
    · have htake : min remaining (f.extend v).parser.buffer.length =
          min remaining f.parser.buffer.length := by omega
      have hcollect : min (min remaining f.parser.buffer.length) captureRemaining ≤
          f.parser.buffer.length := (min_le_left _ _).trans (min_le_right _ _)
      rw [if_pos hlast] at h
      rw [htake, if_pos hlast, ← Turn.again.inj h]
      simp only [Feed.extend, Feed.emit, HttpStreamParser.advance,
        List.take_append_of_le_length hcollect,
        List.drop_append_of_le_length (min_le_right _ _)]
    · rw [if_neg hlast] at h
      cases h

/-- A call that breaks off: what it took of the body is neither reported nor in the buffer. -/
structure BreaksOff (v : Bytes) (r e : Reader) (f g : Feed) : Prop where
  lost : ∃ lost, e.tokens = r.tokens ++ lost ∧ ∀ t ∈ lost,
    t.isBody = true ∧ r.offset ≤ t.offset ∧ t.offset < g.parser.streamOffset
  events : g.report.events = f.report.events
  passes : ∃ k, (f.extend v).parser.Passes g.parser k
  state : g.parser.state = .headers

theorem mem_chunkTokens {view : ContentView} {base k : ℕ} {buf : Bytes} {chunks : List ChunkData}
    (hplaced : PlacedIn buf k (chunks.map fun q ↦ (q.relativeOffset, q.data))) {t : Token}
    (h : t ∈ chunkTokens view base chunks) :
    t.isBody = true ∧ base ≤ t.offset ∧ t.offset < base + k := by
  obtain ⟨q, hq, ht⟩ := List.mem_flatMap.mp h
  obtain ⟨hbody, hfrom, hto⟩ := mem_bodyTokens ht
  have hwithin := hplaced.within _ (List.mem_map_of_mem hq)
  dsimp only at hwithin
  exact ⟨hbody, by omega, by omega⟩

theorem turnChunked_breaks (h : Sim cfg d tokens errors f r) {info : MessageInfo}
    {decoder : ChunkedDecoder} {compressed : Bytes} {bodySeen : ℕ} {captureBody : Bool}
    (hstate : f.parser.state = .chunked info decoder compressed bodySeen captureBody)
    (hrun : runFrom (Reader.step cfg) r f.parser.buffer = e) (hbreak : e.phase.Breaks x)
    (ys : Bytes)
    (hroom : f.parser.streamOffset + (f.parser.buffer ++ x :: ys).length ≤ u64Max) :
    (∃ f', Feed.turnChunked cfg f info decoder compressed bodySeen captureBody = .again f' ∧
      f'.parser.state = .headers ∧
      Feed.turnChunked cfg (f.extend (x :: ys)) info decoder compressed bodySeen captureBody =
        .again (f'.extend (x :: ys))) ∨
    ∃ g, Feed.turnChunked cfg (f.extend (x :: ys)) info decoder compressed bodySeen captureBody =
      .again g ∧ BreaksOff (x :: ys) r e f g := by
  obtain ⟨hdecoder, -, hseen, hcapture⟩ : decoder.Ok f.parser.buffer ∧
      f.parser.headerScanFrom = 0 ∧ bodySeen ≤ f.parser.streamOffset ∧
      (captureBody = false → cfg.httpMaxBodyBytes ≤ bodySeen) := by
    have hready := h.ready
    rwa [HttpStreamParser.Ready, hstate] at hready
  have hphase : r.phase =
      chunkPhase (cfg.httpMaxBodyBytes - bodySeen) info.bodyView decoder.state := by
    rw [h.phase, hstate]
    rfl
  have hbound := h.bound
  obtain ⟨p, hend, hp, hfails⟩ :=
    consume_breaks hdecoder hphase (by omega) (by rwa [hrun]) ys
  obtain ⟨k, hk, hbuf, hplaced⟩ := decoder.placed_consume f.parser.buffer cfg.httpMaxHeaderBytes
    (cfg.httpMaxBodyBytes - bodySeen)
  obtain ⟨l, hl, hbuf', -⟩ := decoder.placed_consume (f.parser.buffer ++ x :: ys)
    cfg.httpMaxHeaderBytes (cfg.httpMaxBodyBytes - bodySeen)
  rw [hp] at hbuf hplaced
  simp only [ChunkPass.outcome, hend.failed, Bool.false_eq_true, if_false] at hbuf hplaced
  obtain ⟨-, hplaced⟩ := hplaced _ rfl
  dsimp only at hplaced
  have hmore : (f.extend (x :: ys)).parser.buffer ≠ [] := fun hnil ↦ by
    have hright := (List.append_eq_nil_iff.mp hnil).2
    cases hright
  unfold Feed.turnChunked
  rw [if_neg hmore, collectRemaining_eq hcapture]
  cases hdone : p.done with
  | true =>
      left
      obtain ⟨r', hheader, -, -, -, -, hrun'⟩ := hend.done hdone
      have hne : f.parser.buffer ≠ [] := fun hnil ↦ by
        rw [hnil, List.drop_nil] at hbuf
        rw [hbuf, hrun, runFrom_nil] at hrun'
        rw [← hrun', hheader] at hbreak
        exact hbreak
      have hresult : (decoder.consume f.parser.buffer cfg.httpMaxHeaderBytes
          (cfg.httpMaxBodyBytes - bodySeen)).result = some {
            dataChunks := p.chunks
            done := true
            wireConsumed := f.parser.buffer.length - p.buf.length
            bodyBytes := p.bodyBytes } := by
        rw [hp, ChunkPass.outcome, hdone]
        simp only [hend.failed, Bool.false_eq_true, if_false]
      have happend := consume_append hdecoder hresult rfl (x :: ys)
      rw [if_neg hne, show (f.extend (x :: ys)).parser.buffer = f.parser.buffer ++ x :: ys from rfl]
      dsimp only
      simp only [happend, hresult, if_true]
      exact ⟨_, rfl, rfl, rfl⟩
  | false =>
      right
      obtain ⟨hnone, hlen⟩ := hfails hdone
      obtain ⟨r', hsim, hwaiting⟩ := hend.more hdone
      rw [show (f.extend (x :: ys)).parser.buffer = f.parser.buffer ++ x :: ys from rfl]
      dsimp only
      rw [hnone]
      have htaken : (f.parser.buffer ++ x :: ys).length -
          (decoder.consume (f.parser.buffer ++ x :: ys) cfg.httpMaxHeaderBytes
            (cfg.httpMaxBodyBytes - bodySeen)).buf.length = l := by
        rw [hbuf', List.length_drop]
        omega
      have hstream : satAdd f.parser.streamOffset l = f.parser.streamOffset + l :=
        satAdd_of_le (by omega)
      have hfar : k ≤ l := by
        rw [hbuf', hbuf, List.length_drop, List.length_drop, List.length_append] at hlen
        rw [List.length_append] at hl
        omega
      refine ⟨_, rfl, ⟨chunkTokens info.bodyView r.offset p.chunks, ?_, fun t ht ↦ ?_⟩, rfl,
        ⟨l, hl, ?_, fun _ ↦ ?_, rfl⟩, rfl⟩
      · rw [← hrun, ← hsim.run, hwaiting.tokens, hsim.tokens]
      · obtain ⟨hbody, hfrom, hto⟩ := mem_chunkTokens hplaced ht
        refine ⟨hbody, hfrom, ?_⟩
        simp only [Feed.desync, Feed.countError, Feed.extend, htaken, hstream]
        rw [h.offset] at hto
        omega
      · simp only [Feed.desync, Feed.countError, hbuf']
        rfl
      · simp only [Feed.desync, Feed.countError, Feed.extend, htaken, hstream]

/-- Outside of a chunked body, a round that stops does not end inside of one. -/
theorem stops_turnHeaders (hstate : f.parser.state = .headers)
    (h : Feed.turnHeaders cfg c f = .stop f') : f'.parser.state.isChunked = false := by
  have hready : f.parser.ready.1.state = .headers :=
    HttpStreamParser.state_ready.trans hstate
  unfold Feed.turnHeaders at h
  dsimp only at h
  split at h
  · rw [← Turn.stop.inj h, hready]
    rfl
  · split at h
    · split at h
      · rw [← Turn.stop.inj h]
        simp only [HttpStreamParser.state_trimDesyncedSuffix, Feed.desync, Feed.countError, hready]
        rfl
      · rw [← Turn.stop.inj h]
        simp only [hready]
        rfl
    · split at h
      · cases h
      · unfold Feed.onHeader at h
        dsimp only at h
        split at h
        · rw [← Turn.stop.inj h]
          rfl
        · split at h <;> cases h

theorem stops_turnFixed {remaining : ℕ} {info : MessageInfo} {compressed : Bytes}
    (hstate : f.parser.state = .fixed remaining info compressed)
    (h : Feed.turnFixed cfg f remaining info compressed = .stop f') :
    f'.parser.state.isChunked = false := by
  unfold Feed.turnFixed at h
  dsimp only at h
  split at h
  · rw [← Turn.stop.inj h, hstate]
    rfl
  · split at h
    · cases h
    · rw [← Turn.stop.inj h]
      rfl

theorem stops_turnSkipFixed {remaining captureRemaining : ℕ} {info : MessageInfo}
    (hstate : f.parser.state = .skipFixed remaining captureRemaining info)
    (h : Feed.turnSkipFixed f remaining captureRemaining info = .stop f') :
    f'.parser.state.isChunked = false := by
  unfold Feed.turnSkipFixed at h
  dsimp only at h
  split at h
  · rw [← Turn.stop.inj h, hstate]
    rfl
  · split at h
    · cases h
    · rw [← Turn.stop.inj h]
      rfl

theorem state_turnFixed {remaining : ℕ} {info : MessageInfo} {compressed : Bytes}
    (h : Feed.turnFixed cfg f remaining info compressed = .again f') :
    f'.parser.state = .headers := by
  unfold Feed.turnFixed at h
  dsimp only at h
  split at h
  · cases h
  · split at h
    · obtain rfl := Turn.again.inj h
      rfl
    · cases h

theorem state_turnSkipFixed {remaining captureRemaining : ℕ} {info : MessageInfo}
    (h : Feed.turnSkipFixed f remaining captureRemaining info = .again f') :
    f'.parser.state = .headers := by
  unfold Feed.turnSkipFixed at h
  dsimp only at h
  split at h
  · cases h
  · split at h
    · obtain rfl := Turn.again.inj h
      rfl
    · cases h

/-- A body starts right behind its header block. -/
theorem header_of_turnHeaders (hstate : f.parser.state = .headers)
    (h : Feed.turnHeaders cfg c f = .again f') (hbody : f'.parser.state ≠ .headers) :
    ∃ view record offset data, tokensOf f'.report.events =
      tokensOf f.report.events ++ [.header view record offset data] := by
  have hready : f.parser.ready.1.state = .headers :=
    HttpStreamParser.state_ready.trans hstate
  unfold Feed.turnHeaders at h
  dsimp only at h
  split at h
  · cases h
  · split at h
    · split at h <;> cases h
    · split at h
      · obtain rfl := Turn.again.inj h
        exact absurd hready hbody
      · unfold Feed.onHeader at h
        dsimp only at h
        split at h
        · cases h
        · split at h
          · obtain rfl := Turn.again.inj h
            exact ⟨_, _, _, _, tokensOf_append _ _⟩
          · obtain rfl := Turn.again.inj h
            exact absurd rfl hbody

theorem Approaches.offset (h : Approaches cfg d tokens errors e f) (hbreak : e.phase.Breaks x) :
    f.parser.streamOffset + f.parser.buffer.length = e.offset := by
  obtain ⟨r, hsim, rfl, -⟩ := h
  have hhttp : (runFrom (Reader.step cfg) r f.parser.buffer).phase ≠ .tunnel := fun htunnel ↦ by
    rw [htunnel] at hbreak
    exact hbreak
  rw [Reader.offset_run (not_failed_of_breaks hbreak) hhttp, hsim.offset]

/-- A round that does not end inside of a chunked body is the same with more bytes behind the
buffer. -/
theorem Approaches.unbroken {t t' : Turn Feed} {v : Bytes}
    (h : SimTurns cfg d tokens errors e t) (hbreak : e.phase.Breaks x)
    (hstop : ∀ f', t = .stop f' → f'.parser.state.isChunked = false)
    (hagain : ∀ f', t = .again f' → t' = .again (f'.extend v))
    (hfresh : ∀ f' r', t = .again f' → Sim cfg d tokens errors f' r' →
      f'.parser.state ≠ .headers → f'.report.events = [] ∨ messageBody r'.tokens = []) :
    ∃ f', t' = .again (f'.extend v) ∧ Approaches cfg d tokens errors e f' := by
  cases t with
  | stop f' => exact absurd hbreak (not_breaks_of_stop h (hstop f' rfl))
  | again f' =>
      obtain ⟨r', hsim', hrun'⟩ := h
      exact ⟨f', hagain f' rfl, r', hsim', hrun', hfresh f' r' rfl hsim'⟩

/-- The next round with the invalid byte behind the buffer: it is the round without it, or it
breaks off. -/
theorem Approaches.turn (h : Approaches cfg d tokens errors e f) (hd : c.direction = d)
    (hbreak : e.phase.Breaks x) (ys : Bytes) (hroom : e.offset + (x :: ys).length ≤ u64Max) :
    (∃ f', Feed.turn cfg c (f.extend (x :: ys)) = .again (f'.extend (x :: ys)) ∧
      Approaches cfg d tokens errors e f') ∨
    ∃ r g, Feed.turn cfg c (f.extend (x :: ys)) = .again g ∧ Sim cfg d tokens errors f r ∧
      (f.report.events = [] ∨ messageBody r.tokens = []) ∧ BreaksOff (x :: ys) r e f g := by
  have hoffset := h.offset hbreak
  obtain ⟨r, hsim, hrun, hfresh⟩ := h
  have hok := not_failed_of_breaks hbreak
  have hnext := simTurns_turn hsim hd hrun hok
  cases hstate : f.parser.state with
  | headers =>
      have hturn : Feed.turn cfg c f = Feed.turnHeaders cfg c f := by rw [Feed.turn, hstate]
      have hturn' : Feed.turn cfg c (f.extend (x :: ys)) =
          Feed.turnHeaders cfg c (f.extend (x :: ys)) := by
        rw [Feed.turn, show (f.extend (x :: ys)).parser.state = .headers from hstate]
      have hscan : ScannedTo doubleCrlf f.parser.buffer f.parser.headerScanFrom := by
        have hready := hsim.ready
        rwa [HttpStreamParser.Ready, hstate] at hready
      rw [hturn] at hnext
      rw [hturn']
      refine .inl (Approaches.unbroken hnext hbreak (fun f' ↦ stops_turnHeaders hstate)
        (fun f' hround ↦ turnHeaders_extend hsim.synced hscan hround _) ?_)
      intro f' r' hround hsim' hbody
      obtain ⟨view, record, offset, data, htokens⟩ := header_of_turnHeaders hstate hround hbody
      right
      rw [hsim'.tokens, htokens, ← List.append_assoc]
      exact messageBody_header _ _ _ _ _
  | fixed remaining info compressed =>
      have hturn : Feed.turn cfg c f = Feed.turnFixed cfg f remaining info compressed := by
        rw [Feed.turn, hstate]
      have hturn' : Feed.turn cfg c (f.extend (x :: ys)) =
          Feed.turnFixed cfg (f.extend (x :: ys)) remaining info compressed := by
        rw [Feed.turn,
          show (f.extend (x :: ys)).parser.state = .fixed remaining info compressed from hstate]
      rw [hturn] at hnext
      rw [hturn']
      exact .inl (Approaches.unbroken hnext hbreak (fun f' ↦ stops_turnFixed hstate)
        (fun f' hround ↦ turnFixed_extend hround _)
        fun f' _ hround _ hbody ↦ absurd (state_turnFixed hround) hbody)
  | skipFixed remaining captureRemaining info =>
      have hturn : Feed.turn cfg c f = Feed.turnSkipFixed f remaining captureRemaining info := by
        rw [Feed.turn, hstate]
      have hturn' : Feed.turn cfg c (f.extend (x :: ys)) =
          Feed.turnSkipFixed (f.extend (x :: ys)) remaining captureRemaining info := by
        rw [Feed.turn, show (f.extend (x :: ys)).parser.state =
          .skipFixed remaining captureRemaining info from hstate]
      rw [hturn] at hnext
      rw [hturn']
      exact .inl (Approaches.unbroken hnext hbreak (fun f' ↦ stops_turnSkipFixed hstate)
        (fun f' hround ↦ turnSkipFixed_extend hround _)
        fun f' _ hround _ hbody ↦ absurd (state_turnSkipFixed hround) hbody)
  | chunked info decoder compressed bodySeen captureBody =>
      have hturn : Feed.turn cfg c f =
          Feed.turnChunked cfg f info decoder compressed bodySeen captureBody := by
        rw [Feed.turn, hstate]
      have hturn' : Feed.turn cfg c (f.extend (x :: ys)) = Feed.turnChunked cfg
          (f.extend (x :: ys)) info decoder compressed bodySeen captureBody := by
        rw [Feed.turn, show (f.extend (x :: ys)).parser.state =
          .chunked info decoder compressed bodySeen captureBody from hstate]
      rw [hturn] at hnext
      rw [hturn']
      rcases turnChunked_breaks hsim hstate hrun hbreak ys (by rw [List.length_append]; omega) with
        ⟨f', hround, hheaders, hmore⟩ | ⟨g, hround, hbreaks⟩
      · rw [hround] at hnext
        obtain ⟨r', hsim', hrun'⟩ := hnext
        exact .inl ⟨f', hmore, r', hsim', hrun', fun hbody ↦ absurd hheaders hbody⟩
      · exact .inr ⟨r, g, hround, hsim, hfresh (by simp [hstate]), hbreaks⟩
  | untilClose info compressed bodySeen captureBody =>
      have hturn : Feed.turn cfg c f =
          Feed.turnUntilClose cfg f info compressed bodySeen captureBody := by
        rw [Feed.turn, hstate]
      rw [hturn] at hnext
      unfold Feed.turnUntilClose at hnext
      split at hnext
      · exact absurd hbreak (not_breaks_of_stop hnext (by rw [hstate]; rfl))
      · exact absurd hbreak (not_breaks_of_stop hnext rfl)

end Call

section Rest

variable {cfg : HttpConfig} {c : StreamChunk} {d : Direction} {f f' : Feed} {m n k : ℕ}
  {p : HttpStreamParser} {es es' E : List HttpEmission} {s : Session}

/-- The events are about one direction, and about nothing before a place of it. -/
def Later (m : ℕ) (d : Direction) (es : List HttpEmission) : Prop :=
  Own d es ∧ ∀ q ∈ pieces (wireRecords d es), m ≤ q.1

theorem later_nil (m : ℕ) (d : Direction) : Later m d [] :=
  ⟨by simp [Own], by simp [pieces, wireRecords]⟩

theorem Later.append (h : Later m d es) (h' : Later m d es') : Later m d (es ++ es') := by
  refine ⟨h.1.append h'.1, fun q hq ↦ ?_⟩
  rw [pieces_wireRecords_append] at hq
  exact (List.mem_append.mp hq).elim (h.2 q) (h'.2 q)

/-- No byte of a body in the events is from before. -/
theorem Later.offset (h : Later m d es) {t : Token} (ht : t ∈ tokensOf es)
    (hbody : t.isBody = true) : m ≤ t.offset := by
  obtain ⟨e, he, ht⟩ := List.mem_flatMap.mp ht
  unfold HttpEmission.tokens at ht
  split at ht
  · obtain ⟨record, -, rfl⟩ := List.mem_map.mp ht
    cases hbody
  · obtain ⟨record, hrecord, ht⟩ := List.mem_flatMap.mp ht
    split at ht
    next hwire =>
      have hmem : (record.streamOffset, record.data) ∈ pieces (wireRecords d es) := by
        refine List.mem_map_of_mem (List.mem_filter.mpr ⟨List.mem_flatMap.mpr ⟨e, he, hrecord⟩, ?_⟩)
        exact decide_eq_true ⟨h.1 e he record hrecord, hwire⟩
      exact (h.2 _ hmem).trans (mem_bodyTokens ht).2.1
    · cases ht

/-- A parser that is beyond a place of its stream, and gets its bytes without a gap. -/
structure HttpStreamParser.Beyond (d : Direction) (m n : ℕ) (p : HttpStreamParser) : Prop where
  offset : m ≤ p.streamOffset
  next : p.nextInputOffset = some n
  room : p.streamOffset + p.buffer.length ≤ n
  state : p.state.Of d

theorem HttpStreamParser.Beyond.moves (h : f.parser.Beyond d m n) (hn : n ≤ u64Max)
    (hmoves : Moves d f f' k es) : f'.parser.Beyond d m n ∧ Later m d es := by
  have hroom := h.room
  have hle := hmoves.passes.le
  have hoffset := hmoves.passes.offset (by omega)
  have hlen := hmoves.passes.length_le
  obtain ⟨qs, -, hpieces⟩ := hmoves.placed (by omega)
  refine ⟨⟨?_, hmoves.passes.next.trans h.next, ?_, hmoves.state⟩, hmoves.own, fun q hq ↦ ?_⟩
  · have := h.offset
    omega
  · omega
  · rw [hpieces] at hq
    obtain ⟨q', -, rfl⟩ := List.mem_map.mp hq
    exact h.offset.trans (Nat.le_add_right _ _)

/-- From a state of the loop beyond a place on, everything is reported from behind it. -/
def Past (d : Direction) (m n : ℕ) (E : List HttpEmission) (f : Feed) : Prop :=
  f.parser.Beyond d m n ∧ ∃ es, f.report.events = E ++ es ∧ Later m d es

theorem Past.turn (cfg : HttpConfig) (h : Past d m n E f) (hn : n ≤ u64Max) (hd : c.direction = d) :
    Past d m n E (Feed.turn cfg c f).state := by
  obtain ⟨hbeyond, es, hevents, hlater⟩ := h
  have hturns : MovesOrTunnels d f (Feed.turn cfg c f) := moves_turn hd hbeyond.state
  rcases hturns with ⟨k, new, hmoves⟩ | ⟨f', k, new, hmoves, hstop⟩
  · obtain ⟨hnext, hnew⟩ := hbeyond.moves hn hmoves
    refine ⟨hnext, es ++ new, ?_, hlater.append hnew⟩
    rw [hmoves.events, hevents, List.append_assoc]
  · obtain ⟨hnext, hnew⟩ := hbeyond.moves hn hmoves
    rw [hstop]
    refine ⟨⟨hnext.offset, hnext.next, ?_, hnext.state⟩, es ++ new, ?_, hlater.append hnew⟩
    · have := hnext.room
      simp only [Turn.state, List.length_nil]
      omega
    · simp only [Turn.state]
      rw [hmoves.events, hevents, List.append_assoc]

theorem Past.leaves {g : Feed} (h : Past d m n E f) (hn : n ≤ u64Max) (hd : c.direction = d)
    (hleaves : Leaves (Feed.turn cfg c) f g) : Past d m n E g :=
  hleaves.invariant (fun _ hf ↦ hf.turn cfg hn hd) h

theorem HttpStreamParser.Beyond.accept (h : p.Beyond d m c.offset)
    (hbound : c.offset + c.data.length ≤ u64Max) (pending : List RequestKind) :
    (p.accept c pending).1.Beyond d m (c.offset + c.data.length) := by
  have haccept : (p.accept c pending).1 = { p with
      nextInputOffset := some (satAdd c.offset c.data.length)
      buffer := p.buffer ++ c.data } := by
    simp [HttpStreamParser.accept, h.next]
  have hroom := h.room
  rw [haccept, satAdd_of_le hbound]
  refine ⟨h.offset, rfl, ?_, h.state⟩
  simp only [List.length_append]
  omega

/-- A session beyond a place of one of its streams. -/
structure Session.Past (d : Direction) (m n : ℕ) (E : List HttpEmission) (s : Session) : Prop where
  events : ∃ es, s.report.events = E ++ es ∧ Later m d es
  parser : s.connection.mode = .http → (s.connection.parser d).Beyond d m n

theorem Session.Past.feed (h : s.Past d m n E) (hd : c.direction = d) (hoffset : c.offset = n)
    (hbound : n + c.data.length ≤ u64Max) :
    (s.feed cfg c).Past d m (n + c.data.length) E := by
  cases hmode : s.connection.mode with
  | tunnel =>
      have hno : s.connection.mode ≠ .http := by simp [hmode]
      rw [Session.feed_of_tunnel hmode]
      exact ⟨h.events, fun hhttp ↦ absurd hhttp hno⟩
  | http =>
      subst hd hoffset
      obtain ⟨es, hevents, hlater⟩ := h.events
      obtain ⟨hidle, hfeed, -, -⟩ := Session.feed_of_http cfg c hmode
      have hleaves : Leaves (Feed.turn cfg c) _ ((s.connection.parser c.direction).feed cfg c
          s.connection.pendingRequests s.connection.requestDirection) :=
        leaves_loop (fun _ _ ↦ Feed.measure_turn) (Nat.lt_succ_self _)
      have hstart := (h.parser hmode).accept hbound s.connection.pendingRequests
      obtain ⟨hbeyond, new, hnew, hlater'⟩ := Past.leaves (E := [])
        ⟨hstart, [], rfl, later_nil m c.direction⟩ hbound rfl hleaves
      have hparser := congrArg Feed.parser hidle
      simp only [Session.idle] at hparser
      refine ⟨⟨es ++ new, ?_, hlater.append hlater'⟩, fun _ ↦ ?_⟩
      · rw [hfeed, hnew, hevents, List.nil_append, List.append_assoc]
      · rwa [hparser]

theorem Session.Past.run (cfg : HttpConfig) {cs : List StreamChunk} {rest : Bytes}
    (h : s.Past d m n E) (hcs : Cuts d n rest cs) (hbound : n + rest.length ≤ u64Max) :
    (runFrom (Session.feed cfg) s cs).Past d m (n + rest.length) E := by
  induction cs generalizing s n rest with
  | nil =>
      obtain rfl : rest = [] := hcs
      exact h
  | cons c cs ih =>
      obtain ⟨hd, hoffset, -, ⟨later, rfl⟩, hrest⟩ := hcs
      rw [List.drop_left] at hrest
      rw [List.length_append, ← Nat.add_assoc] at hbound ⊢
      exact ih (h.feed hd hoffset (by omega)) hrest hbound

/-- What a session reads of a direction, up to the end of its stream. -/
def Session.delivered (cfg : HttpConfig) (d : Direction) (s : Session) : List Token :=
  tokensOf (s.report.events ++
    if s.connection.mode = .tunnel then [] else (s.connection.parser d).finish cfg)

theorem Session.Past.delivered (h : s.Past d m n E) (hn : n ≤ u64Max) (cfg : HttpConfig) :
    ∃ es, s.delivered cfg d = tokensOf E ++ tokensOf es ∧ Later m d es := by
  obtain ⟨es, hevents, hlater⟩ := h.events
  unfold Session.delivered
  rw [hevents]
  cases hmode : s.connection.mode with
  | tunnel =>
      rw [if_pos rfl, List.append_nil, tokensOf_append]
      exact ⟨es, rfl, hlater⟩
  | http =>
      have hbeyond := h.parser hmode
      have hroom := hbeyond.room
      obtain ⟨hown, l, qs, -, hpieces⟩ := emits_finish hbeyond.state (by omega) cfg
      rw [if_neg HttpMode.noConfusion, List.append_assoc, tokensOf_append]
      refine ⟨_, rfl, hlater.append ⟨hown, fun q hq ↦ ?_⟩⟩
      rw [hpieces] at hq
      obtain ⟨q', -, rfl⟩ := List.mem_map.mp hq
      exact hbeyond.offset.trans (Nat.le_add_right _ _)

end Rest

section Broken

variable {cfg : HttpConfig} {c : StreamChunk} {d : Direction} {tokens : List Token} {errors n : ℕ}
  {f g : Feed} {e r₀ : Reader} {x : UInt8} {s : Session} {V read : Bytes}

/-- The tokens up to the break are reported but the last bytes, and only what comes after these
is reported later. -/
structure Loses (tokens : List Token) (e : Reader) (E : List HttpEmission) (lost : List Token)
    (m : ℕ) : Prop where
  all : tokens ++ tokensOf E ++ lost = e.tokens
  before : ∀ t ∈ lost, t.isBody = true ∧ t.offset < m
  fresh : E = [] ∨ messageBody (tokens ++ tokensOf E) = []

/-- A call that breaks off, from a state before the break on. -/
theorem Approaches.leaves (h : Approaches cfg d tokens errors e f) (hd : c.direction = d)
    (hbreak : e.phase.Breaks x) (ys : Bytes) (hnext : f.parser.nextInputOffset = some n)
    (hroom : e.offset + (x :: ys).length = n) (hn : n ≤ u64Max)
    (hleaves : Leaves (Feed.turn cfg c) (f.extend (x :: ys)) g) :
    ∃ E lost m, Loses tokens e E lost m ∧ Past d m n E g := by
  have hturn : ∀ f : Feed, (∃ f', f = f'.extend (x :: ys) ∧ Approaches cfg d tokens errors e f' ∧
      f'.parser.nextInputOffset = some n) →
      ∃ f', Feed.turn cfg c f = .again f' ∧ ((∃ f'', f' = f''.extend (x :: ys) ∧
        Approaches cfg d tokens errors e f'' ∧ f''.parser.nextInputOffset = some n) ∨
        ∃ E lost m, Loses tokens e E lost m ∧ Past d m n E f') := by
    rintro f ⟨f', rfl, happroach, hnext⟩
    have hsame := next_turn cfg c (f'.extend (x :: ys))
    have hoffset := happroach.offset hbreak
    rcases happroach.turn hd hbreak ys (by omega) with
      ⟨f'', hagain, happroach'⟩ | ⟨r, g, hagain, hsim, hfresh, hbreaks⟩
    · rw [hagain] at hsame
      exact ⟨_, hagain, .inl ⟨f'', rfl, happroach', hsame.trans hnext⟩⟩
    · obtain ⟨lost, htokens, hlost⟩ := hbreaks.lost
      obtain ⟨k, hpasses⟩ := hbreaks.passes
      have hlen : (f'.extend (x :: ys)).parser.buffer.length =
          f'.parser.buffer.length + (x :: ys).length := List.length_append
      have hstart : (f'.extend (x :: ys)).parser.streamOffset = f'.parser.streamOffset := rfl
      have hk := hpasses.le
      have hplace := hpasses.offset (by omega)
      have hrest := hpasses.length_le
      refine ⟨g, hagain, .inr ⟨f'.report.events, lost, g.parser.streamOffset, ⟨?_, fun t ht ↦ ?_, ?_⟩,
        ⟨le_rfl, hpasses.next.trans hnext, by omega, ?_⟩, [], ?_, later_nil _ d⟩⟩
      · rw [← hsim.tokens, htokens]
      · exact ⟨(hlost t ht).1, (hlost t ht).2.2⟩
      · rwa [← hsim.tokens]
      · rw [hbreaks.state]
        trivial
      · rw [hbreaks.events, List.append_nil]
  refine hleaves.rule (I := fun f ↦ (∃ f', f = f'.extend (x :: ys) ∧
    Approaches cfg d tokens errors e f' ∧ f'.parser.nextInputOffset = some n) ∨
      ∃ E lost m, Loses tokens e E lost m ∧ Past d m n E f)
    (J := fun f ↦ ∃ E lost m, Loses tokens e E lost m ∧ Past d m n E f) ?_ ?_
    (.inl ⟨f, rfl, h, hnext⟩)
  · rintro f f' (happroach | ⟨E, lost, m, hloses, hpast⟩) hagain
    · obtain ⟨f'', hturn', hI⟩ := hturn f happroach
      obtain rfl := Turn.again.inj (hagain.symm.trans hturn')
      exact hI
    · have hnext := hpast.turn cfg hn hd
      rw [hagain] at hnext
      exact .inr ⟨E, lost, m, hloses, hnext⟩
  · rintro f f' (happroach | ⟨E, lost, m, hloses, hpast⟩) hstop
    · obtain ⟨f'', hturn', -⟩ := hturn f happroach
      cases hstop.symm.trans hturn'
    · have hnext := hpast.turn cfg hn hd
      rw [hstop] at hnext
      exact ⟨E, lost, m, hloses, hnext⟩

theorem not_tunnel_of_breaks {phase : Phase} (h : phase.Breaks x) : phase ≠ .tunnel := by
  rintro rfl
  exact h

/-- The chunk in which the break arrives. -/
theorem Follows.broken_feed {bs c₁ ys : Bytes} (h : Follows cfg d bs r₀ s read)
    (hzero : r₀.offset = 0) (hd : c.direction = d) (hoffset : c.offset = read.length)
    (hdata : c.data = c₁ ++ x :: ys) (hbound : read.length + c.data.length ≤ u64Max)
    (hbreak : (runFrom (Reader.step cfg) r₀ (read ++ c₁)).phase.Breaks x) :
    ∃ E lost m, Loses (tokensOf s.report.events) (runFrom (Reader.step cfg) r₀ (read ++ c₁)) E
        lost m ∧
      (s.feed cfg c).Past d m (read.length + c.data.length) (s.report.events ++ E) := by
  have hlen : c.data.length = c₁.length + (x :: ys).length := by rw [hdata, List.length_append]
  have hok := not_failed_of_breaks hbreak
  have hmode : s.connection.mode = .http := by
    cases hmode : s.connection.mode with
    | http => rfl
    | tunnel =>
        obtain ⟨hphase, -⟩ := h.sim.tunnel hmode
        rw [runFrom_append, Reader.run_tunnel hphase] at hbreak
        exact absurd hphase (not_tunnel_of_breaks hbreak)
  obtain ⟨r, hsim, -, hrun⟩ := h.sim.http hmode
  have hnext := h.contiguous hmode hoffset
  have hread : (runFrom (Reader.step cfg) r₀ read).phase ≠ .failed :=
    Reader.not_failed_of_append hok
  have hhttp : (runFrom (Reader.step cfg) r₀ read).phase ≠ .tunnel := fun htunnel ↦ by
    rw [runFrom_append, Reader.run_tunnel htunnel] at hbreak
    exact absurd htunnel (not_tunnel_of_breaks hbreak)
  have hplace : (s.connection.parser d).streamOffset + (s.connection.parser d).buffer.length =
      read.length := by
    have hfirst := Reader.offset_run hread hhttp
    rw [← hrun] at hread hhttp hfirst
    have hsecond := Reader.offset_run hread hhttp
    have hstream : r.offset = (s.connection.parser d).streamOffset := hsim.offset
    have hbuffer : (s.idle d).parser.buffer = (s.connection.parser d).buffer := rfl
    rw [hbuffer] at hfirst hsecond
    omega
  have hbefore : s.idle d = { parser := s.connection.parser d
                              pendingRequests := s.connection.pendingRequests
                              requestDirection := s.connection.requestDirection } := by
    rw [Session.idle, hmode]
  rw [hbefore] at hsim hrun
  obtain ⟨r', hsim', hrun'⟩ := hsim.accept (c := { c with data := c₁ }) hrun
    (by simp only [List.length_append]; omega) hnext
  dsimp only at hsim' hrun'
  rw [accept_of_next (c := { c with data := c₁ }) hnext] at hsim' hrun'
  rw [← runFrom_append] at hrun'
  have hlast : satAdd c.offset c.data.length = read.length + c.data.length := by
    rw [hoffset, satAdd_of_le hbound]
  have happroach : Approaches cfg d (tokensOf s.report.events) s.report.parseErrors
      (runFrom (Reader.step cfg) r₀ (read ++ c₁))
      { parser := { s.connection.parser d with
          nextInputOffset := some (read.length + c.data.length)
          buffer := (s.connection.parser d).buffer ++ c₁ }
        pendingRequests := s.connection.pendingRequests
        requestDirection := s.connection.requestDirection } :=
    ⟨r', ⟨hsim'.phase, hsim'.offset, hsim'.bound, hsim'.pending, hsim'.errors, hsim'.few,
      hsim'.tokens, hsim'.synced, hsim'.ready, hsim'.state, hsim'.mode⟩, hrun', fun _ ↦ .inl rfl⟩
  have hend : (runFrom (Reader.step cfg) r₀ (read ++ c₁)).offset = read.length + c₁.length := by
    rw [Reader.offset_run hok (not_tunnel_of_breaks hbreak), hzero, List.length_append, Nat.zero_add]
  subst hd
  have hleaves : Leaves (Feed.turn cfg c) ((s.connection.parser c.direction).begin c
      s.connection.pendingRequests s.connection.requestDirection)
      ((s.connection.parser c.direction).feed cfg c s.connection.pendingRequests
        s.connection.requestDirection) :=
    leaves_loop (fun _ _ ↦ Feed.measure_turn) (Nat.lt_succ_self _)
  rw [HttpStreamParser.begin, accept_of_next hnext, hlast, hdata, ← List.append_assoc,
    ← hdata] at hleaves
  obtain ⟨E, lost, m, hloses, hbeyond, es, hevents, hlater⟩ :=
    happroach.leaves rfl hbreak ys rfl (by omega) hbound hleaves
  obtain ⟨hidle, hfeed, -, -⟩ := Session.feed_of_http cfg c hmode
  have hparser := congrArg Feed.parser hidle
  simp only [Session.idle] at hparser
  refine ⟨E, lost, m, hloses, ⟨es, ?_, hlater⟩, fun _ ↦ ?_⟩
  · rw [hfeed, hevents, List.append_assoc]
  · rwa [hparser]

/-- Nothing of the body is lost exactly when nothing of it arrived with the break. -/
theorem Loses.whole_iff {E : List HttpEmission} {lost new later : List Token} {m a : ℕ}
    (h : Loses tokens e E lost m) (hordered : e.tokens.Pairwise Token.Before)
    (hnew : e.tokens = tokens ++ new) (hfrom : ∀ t ∈ new, t.isBody = true → a ≤ t.offset)
    (hto : ∀ t ∈ tokens, t.isBody = true → t.offset < a)
    (hlater : ∀ t ∈ later, t.isBody = true → m ≤ t.offset) :
    (∀ t ∈ messageBody e.tokens, t ∈ tokens ++ tokensOf E ++ later) ↔
      ∀ t ∈ messageBody e.tokens, t.offset < a := by
  have hbody : messageBody e.tokens = messageBody (tokens ++ tokensOf E) ++ lost := by
    rw [← h.all]
    exact messageBody_append fun t ht ↦ (h.before t ht).1
  have hsuffix : lost <:+ new := by
    have hsame : tokens ++ (tokensOf E ++ lost) = tokens ++ new := by
      rw [← hnew, ← h.all, List.append_assoc]
    exact ⟨tokensOf E, List.append_cancel_left hsame⟩
  rw [← h.all] at hordered
  obtain ⟨-, -, hbefore⟩ := List.pairwise_append.mp hordered
  constructor
  · intro hall t ht
    rw [hbody] at hall ht
    have hnone : lost = [] := by
      rw [List.eq_nil_iff_forall_not_mem]
      intro q hq
      obtain ⟨hqbody, hqm⟩ := h.before q hq
      rcases List.mem_append.mp (hall q (List.mem_append_right _ hq)) with hread | hrest
      · exact lt_irrefl _ (hbefore q hread q hq hqbody hqbody)
      · exact absurd (hlater q hrest hqbody) (not_le.mpr hqm)
    rw [hnone, List.append_nil] at ht
    rcases h.fresh with hE | hfresh
    · rw [hE, show tokensOf [] = [] from rfl, List.append_nil] at ht
      exact hto t (mem_of_mem_messageBody ht) (List.mem_rtakeWhile_imp ht)
    · rw [hfresh] at ht
      cases ht
  · intro hall t ht
    have hnone : lost = [] := by
      rw [List.eq_nil_iff_forall_not_mem]
      intro q hq
      have hqa := hall q (hbody ▸ List.mem_append_right _ hq)
      exact absurd (hfrom q (hsuffix.subset hq) (h.before q hq).1) (not_le.mpr hqa)
    rw [hbody, hnone, List.append_nil] at ht
    exact List.mem_append_left _ (mem_of_mem_messageBody ht)

theorem Cuts.le_offset {bs : Bytes} {cs : List StreamChunk} (h : Cuts d n bs cs) :
    ∀ c ∈ cs, n ≤ c.offset := by
  induction cs generalizing n bs with
  | nil => simp
  | cons c cs ih =>
      obtain ⟨-, hoffset, -, -, hrest⟩ := h
      refine List.forall_mem_cons.mpr ⟨hoffset.ge, fun c' hc' ↦ ?_⟩
      have hle := ih hrest c' hc'
      omega

/-- What was read up to a chunk is before it, and the rest is from it on. -/
theorem Follows.around {bs more : Bytes} (h : Follows cfg d bs r₀ s read) (hzero : r₀.offset = 0)
    (hnone : r₀.tokens = []) (he : runFrom (Reader.step cfg) r₀ (read ++ more) = e)
    (hbreak : e.phase.Breaks x) : e.tokens.Pairwise Token.Before ∧
      (∀ t ∈ tokensOf s.report.events, t.isBody = true → t.offset < read.length) ∧
      ∃ new, e.tokens = tokensOf s.report.events ++ new ∧
        ∀ t ∈ new, t.isBody = true → read.length ≤ t.offset := by
  have hok := not_failed_of_breaks hbreak
  have hhttp := not_tunnel_of_breaks hbreak
  obtain ⟨-, all, hall, hordered, -⟩ := Reader.run_tokens cfg r₀ (read ++ more)
  rw [hnone, List.nil_append] at hall
  rw [he] at hall
  rw [← hall] at hordered
  rw [runFrom_append] at he
  obtain ⟨-, new, hnew, -, hfrom⟩ :=
    Reader.run_tokens cfg (runFrom (Reader.step cfg) r₀ read) more
  obtain ⟨-, first, hfirst, -, hto⟩ := Reader.run_tokens cfg r₀ read
  rw [hnone, List.nil_append] at hfirst
  rw [he] at hnew hfrom
  have hread : (runFrom (Reader.step cfg) r₀ read).phase ≠ .failed := fun hfailed ↦ by
    rw [Reader.run_failed hfailed] at he
    exact hok (he ▸ hfailed)
  have hopen : (runFrom (Reader.step cfg) r₀ read).phase ≠ .tunnel := fun htunnel ↦ by
    rw [Reader.run_tunnel htunnel] at he
    exact hhttp (he ▸ htunnel)
  have hplace := Reader.offset_run hread hopen
  rw [hzero, Nat.zero_add] at hplace
  rw [hplace] at hfrom hto
  obtain ⟨-, -, -, htokens⟩ := h.sim.result
  have hsame : tokensOf s.report.events = first := by
    rw [← hfirst, htokens]
    exact (List.append_nil _).symm
  refine ⟨hordered, fun t ht hbody ↦ ?_, new, ?_, fun t ht hbody ↦ (hfrom t ht hbody).1⟩
  · exact (hto t (hsame ▸ ht) hbody).2
  · rw [hnew, hfirst, hsame]

theorem Follows.whole_iff {bs more rest : Bytes} {cs : List StreamChunk}
    (h : Follows cfg d bs r₀ s read) (hbs : bs = read ++ (more ++ x :: rest))
    (hzero : r₀.offset = 0) (hnone : r₀.tokens = []) (hbound : bs.length ≤ u64Max)
    (hcs : Cuts d read.length (more ++ x :: rest) cs)
    (he : runFrom (Reader.step cfg) r₀ (read ++ more) = e) (hbreak : e.phase.Breaks x) :
    (∀ t ∈ messageBody e.tokens, t ∈ (runFrom (Session.feed cfg) s cs).delivered cfg d) ↔
      ∀ c ∈ cs, c.offset ≤ read.length + more.length →
        read.length + more.length < c.offset + c.data.length →
          ∀ t ∈ messageBody e.tokens, t.offset < c.offset := by
  induction cs generalizing s read more with
  | nil =>
      have hnil := (List.append_eq_nil_iff.mp hcs).2
      cases hnil
  | cons c cs ih =>
      obtain ⟨hd, hoffset, -, ⟨later, hlater⟩, hrest⟩ := hcs
      have hlen := congrArg List.length hlater
      have hlong := congrArg List.length hbs
      simp only [List.length_append, List.length_cons] at hlen hlong
      rw [← hlater, List.drop_left] at hrest
      rw [runFrom_cons, List.forall_mem_cons]
      rcases Nat.lt_or_ge more.length c.data.length with harrives | hbefore
      · obtain ⟨ys, hdata, rfl⟩ : ∃ ys, c.data = more ++ x :: ys ∧ rest = ys ++ later := by
          rcases List.append_eq_append_iff.mp hlater with ⟨q, hmore, -⟩ | ⟨q, hdata, hq⟩
          · rw [hmore, List.length_append] at harrives
            omega
          · cases q with
            | nil =>
                rw [hdata, List.append_nil] at harrives
                exact absurd harrives (lt_irrefl _)
            | cons y ys =>
                obtain ⟨rfl, hrest⟩ := List.cons_eq_cons.mp hq
                exact ⟨ys, hdata, hrest⟩
        obtain ⟨E, lost, m, hloses, hpast⟩ :=
          h.broken_feed hzero hd hoffset hdata (by omega) (he.symm ▸ hbreak)
        rw [he] at hloses
        have hend := hpast.run cfg hrest (by omega)
        obtain ⟨es, hdelivered, hes⟩ := hend.delivered (by omega) cfg
        obtain ⟨hordered, hto, new, hnew, hfrom⟩ := h.around hzero hnone he hbreak
        rw [← hoffset] at hto hfrom
        have hwhole := hloses.whole_iff hordered hnew hfrom hto
          fun t ht hbody ↦ hes.offset ht hbody
        rw [← tokensOf_append, ← hdelivered] at hwhole
        rw [hwhole]
        constructor
        · refine fun hall ↦ ⟨fun _ _ ↦ hall, fun c' hc' hle _ ↦ ?_⟩
          have hfar := hrest.le_offset c' hc'
          omega
        · exact fun hall ↦ hall.1 (by omega) (by omega)
      · obtain ⟨more', rfl⟩ : c.data <+: more :=
          List.prefix_of_prefix_length_le ⟨later, hlater⟩ (List.prefix_append _ _) hbefore
        rw [List.append_assoc] at hlater hbs
        obtain rfl := List.append_cancel_left hlater
        rw [← List.append_assoc] at he hbs
        have hok : (runFrom (Reader.step cfg) r₀ (read ++ c.data)).phase ≠ .failed :=
          Reader.not_failed_of_append (he.symm ▸ not_failed_of_breaks hbreak)
        have hnext := h.feed hd hoffset ⟨_, hbs.symm⟩ hbound hok
        rw [← List.length_append] at hrest
        rw [ih hnext hbs hrest he]
        simp only [List.length_append, Nat.add_assoc]
        refine ⟨fun hall ↦ ⟨fun _ hfar ↦ ?_, hall⟩, fun hall ↦ hall.2⟩
        omega

/-- The body of a chunked message that breaks is read as a whole, however its stream is cut,
exactly when nothing of it arrives in the chunk of the invalid byte. -/
theorem delivered_iff_of_breaks (cfg : HttpConfig) (h : HttpConnection) (d : Direction)
    (hmode : h.mode = .http) (hnew : h.parser d = {}) (V : Bytes) (x : UInt8) (rest : Bytes)
    (hbound : (V ++ x :: rest).length ≤ u64Max)
    (hbreak : (runFrom (Reader.step cfg) { pending := h.pendingRequests } V).phase.Breaks x)
    (cs : List StreamChunk) (hcs : Cuts d 0 (V ++ x :: rest) cs) :
    let body := messageBody (runFrom (Reader.step cfg) { pending := h.pendingRequests } V).tokens
    (∀ t ∈ body, t ∈ (runFrom (Session.feed cfg) { connection := h } cs).delivered cfg d) ↔
      ∀ c ∈ cs, c.offset ≤ V.length → V.length < c.offset + c.data.length →
        ∀ t ∈ body, t.offset < c.offset := by
  have hstart : Follows cfg d (V ++ x :: rest) { pending := h.pendingRequests }
      { connection := h } [] := follows_new hmode hnew
  have hsplit : V ++ x :: rest = [] ++ (V ++ x :: rest) := rfl
  have hwhole := hstart.whole_iff hsplit rfl rfl hbound hcs rfl hbreak
  simpa only [List.length_nil, List.nil_append, Nat.zero_add] using hwhole

def chunkedHeader : Bytes := ascii "POST / HTTP/1.1\r\nTransfer-Encoding: chunked\r\n\r\n"

def chunkedConfig : HttpConfig where
  httpMaxHeaderBytes := 131072
  httpMaxBodyBytes := 67108864
  httpMaxDecodeBytes := 16777216
  httpMaxDecodeRatio := 32
  parseHeader header := if header = chunkedHeader then
      some { request := true, method := some "POST", path := some "/"
             hasTransferEncoding := true, transferFinalChunked := true }
    else none
  inflate _ _ := none

/-- A chunk, and a chunk-size line without its last byte that has no size. -/
def badLine : Bytes := chunkedHeader ++ ascii "3\r\nabc\r\nZZ\r"

/-- The stream in two chunks, of which the first has `n` bytes. -/
def badChunks (n : ℕ) : List StreamChunk :=
  [{ flowId := 0, tsNs := 1, direction := .aToB, offset := 0, data := (badLine ++ [10]).take n },
    { flowId := 0, tsNs := 2, direction := .aToB, offset := n, data := (badLine ++ [10]).drop n }]

theorem delivered_badChunks : Cuts .aToB 0 (badLine ++ [10]) (badChunks 56) ∧
    ∀ t ∈ messageBody (runFrom (Reader.step chunkedConfig) { pending := [] } badLine).tokens,
      t ∈ (runFrom (Session.feed chunkedConfig) { connection := {} } (badChunks 56)).delivered
        chunkedConfig .aToB := by
  have hcuts : Cuts .aToB 0 (badLine ++ [10]) (badChunks 56) := by decide +kernel
  exact ⟨hcuts, (delivered_iff_of_breaks chunkedConfig {} .aToB rfl rfl badLine 10 []
    (by decide +kernel) (by decide +kernel) _ hcuts).mpr (by decide +kernel)⟩

/-- The bytes of the first chunk arrive with the line that has no size, and are lost. -/
theorem not_delivered_badChunks : ¬∀ cs, Cuts .aToB 0 (badLine ++ [10]) cs →
    ∀ t ∈ messageBody (runFrom (Reader.step chunkedConfig) { pending := [] } badLine).tokens,
      t ∈ (runFrom (Session.feed chunkedConfig) { connection := {} } cs).delivered
        chunkedConfig .aToB := by
  intro hall
  exact absurd (hall (badChunks 20) (by decide +kernel)) (by decide +kernel)

end Broken

end Bazalt.Http
