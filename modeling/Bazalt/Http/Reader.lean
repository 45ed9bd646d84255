import Bazalt.Http.Parser
import Bazalt.Lib.Run

/-!
# Reading messages byte by byte

A reader takes one byte at a time.  It collects a header block, a chunk-size line, the line
end after a chunk or trailers until they are complete, and counts the bytes of a body.  What
it has read does not depend on how the bytes arrive.
-/

namespace Bazalt.Http

open Lib

/-- A header block with its metadata, which starts a message, or a byte of a body. -/
inductive Token where
  | header (view : ContentView) (record : HttpRecord) (offset : ℕ) (data : Bytes)
  | body (view : ContentView) (offset : ℕ) (byte : UInt8)
  deriving DecidableEq, Repr

def bodyTokens (view : ContentView) (offset : ℕ) (data : Bytes) : List Token :=
  (data.zipIdx offset).map fun q ↦ .body view q.2 q.1

@[simp] theorem bodyTokens_nil (view : ContentView) (offset : ℕ) :
    bodyTokens view offset [] = [] := rfl

theorem bodyTokens_cons (view : ContentView) (offset : ℕ) (b : UInt8) (data : Bytes) :
    bodyTokens view offset (b :: data) =
      .body view offset b :: bodyTokens view (offset + 1) data := by
  simp [bodyTokens, List.zipIdx_cons]

/-- What is collected, with how many more bytes of the body are captured. -/
inductive Scan where
  | header
  | size (capture : ℕ) (view : ContentView)
  | dataEnd (capture : ℕ) (view : ContentView)
  | trailers
  deriving DecidableEq, Repr

def Scan.Complete : Scan → Bytes → Prop
  | .header, acc => doubleCrlf <:+ acc
  | .size _ _, acc => crlf <:+ acc
  | .dataEnd _ _, acc => acc.length = 2
  | .trailers, acc => acc = crlf ∨ doubleCrlf <:+ acc

instance (what : Scan) (acc : Bytes) : Decidable (what.Complete acc) :=
  match what with
  | .header => inferInstanceAs (Decidable (_ <:+ _))
  | .size _ _ => inferInstanceAs (Decidable (_ <:+ _))
  | .dataEnd _ _ => inferInstanceAs (Decidable (_ = _))
  | .trailers => inferInstanceAs (Decidable (_ ∨ _))

/-- The limit is for everything that has no length of its own. -/
def Scan.Overflows (limit : ℕ) : Scan → Bytes → Prop
  | .dataEnd _ _, _ => False
  | _, acc => limit < acc.length

instance (limit : ℕ) (what : Scan) (acc : Bytes) : Decidable (what.Overflows limit acc) :=
  match what with
  | .header => inferInstanceAs (Decidable (_ < _))
  | .size _ _ => inferInstanceAs (Decidable (_ < _))
  | .dataEnd _ _ => inferInstanceAs (Decidable False)
  | .trailers => inferInstanceAs (Decidable (_ < _))

inductive Phase where
  | scan (what : Scan) (acc : Bytes)
  | body (remaining : Option ℕ) (capture : ℕ) (view : ContentView) (chunked : Bool)
  | tunnel
  | failed
  deriving DecidableEq, Repr

/-- What follows `n` more bytes of a body. -/
def Phase.afterBody (remaining : Option ℕ) (capture : ℕ) (view : ContentView) (chunked : Bool)
    (n : ℕ) : Phase :=
  match remaining with
  | none => .body none (capture - n) view chunked
  | some m =>
      if m ≤ n then
        if chunked then .scan (.dataEnd (capture - n) view) [] else .scan .header []
      else .body (some (m - n)) (capture - n) view chunked

/-- Where a chunked decoder is when `capture` more bytes of the body are captured. -/
def chunkPhase (capture : ℕ) (view : ContentView) : ChunkState → Phase
  | .size => .scan (.size capture view) []
  | .data n => .body (some n) capture view true
  | .dataCrlf => .scan (.dataEnd capture view) []
  | .trailers => .scan .trailers []

/-- Where a parser in this state is before it looks at its buffer. -/
def phaseOf (cfg : HttpConfig) : BodyState → Phase
  | .headers => .scan .header []
  | .fixed remaining info _ => .body (some remaining) remaining info.bodyView false
  | .skipFixed remaining captureRemaining info =>
      .body (some remaining) captureRemaining info.bodyView false
  | .chunked info decoder _ bodySeen _ =>
      chunkPhase (cfg.httpMaxBodyBytes - bodySeen) info.bodyView decoder.state
  | .untilClose info _ bodySeen _ =>
      .body none (cfg.httpMaxBodyBytes - bodySeen) info.bodyView false

structure Reader where
  phase : Phase := .scan .header []
  offset : ℕ := 0
  pending : List RequestKind
  errors : ℕ := 0
  tokens : List Token := []
  deriving DecidableEq, Repr

/-- A chunk that says nothing about its flow. -/
def blankChunk : StreamChunk where
  flowId := 0
  tsNs := 0
  direction := .aToB
  offset := 0
  data := []

namespace Reader

def fail (r : Reader) : Reader := { r with phase := .failed }

/-- What comes after a header block. -/
def framed (cfg : HttpConfig) (parsed : ParsedHeader) (kind : Option RequestKind) : Phase :=
  if Feed.entersTunnel parsed kind then .tunnel
  else match Feed.framing cfg parsed kind (Feed.messageInfo blankChunk parsed .aToB) with
    | some state => phaseOf cfg state
    | none => .failed

/-- A header block that ends here. -/
def onHeader (cfg : HttpConfig) (r : Reader) (header : Bytes) : Reader :=
  match cfg.parseHeader header with
  | none => r.fail
  | some parsed =>
      let (pending, overflow) := Feed.pair parsed r.pending
      { phase := framed cfg parsed (Feed.responseKind parsed r.pending)
        offset := r.offset
        pending := pending
        errors := r.errors + (if parsed.ambiguousFraming then 1 else 0) +
          if overflow then 1 else 0
        tokens := r.tokens ++
          [.header (if parsed.request then .httpRequestHeaders else .httpResponseHeaders)
            (Feed.httpRecord blankChunk parsed) (r.offset - header.length) header] }

/-- Something collected is complete. -/
def complete (cfg : HttpConfig) (r : Reader) (what : Scan) (acc : Bytes) : Reader :=
  match what with
  | .header => r.onHeader cfg acc
  | .size capture view =>
      match chunkSize (acc.take (acc.length - 2)) with
      | none => r.fail
      | some 0 => { r with phase := .scan .trailers [] }
      | some n => { r with phase := .body (some n) capture view true }
  | .dataEnd capture view =>
      if acc = crlf then { r with phase := .scan (.size capture view) [] } else r.fail
  | .trailers => { r with phase := .scan .header [] }

def step (cfg : HttpConfig) (r : Reader) (b : UInt8) : Reader :=
  match r.phase with
  | .scan what acc =>
      let acc := acc ++ [b]
      let r := { r with offset := r.offset + 1 }
      if what.Complete acc then r.complete cfg what acc
      else if what.Overflows cfg.httpMaxHeaderBytes acc then r.fail
      else { r with phase := .scan what acc }
  | .body remaining capture view chunked =>
      { r with
        phase := .afterBody remaining capture view chunked 1
        offset := r.offset + 1
        tokens := r.tokens ++ if capture = 0 then [] else [.body view r.offset b] }
  | .tunnel => r
  | .failed => r

section Run

variable {cfg : HttpConfig} {r : Reader} {bs : Bytes}

theorem run_tunnel (h : r.phase = .tunnel) : runFrom (step cfg) r bs = r := by
  induction bs with
  | nil => rfl
  | cons b bs ih => rw [runFrom_cons, step, h]; exact ih

theorem run_failed (h : r.phase = .failed) : runFrom (step cfg) r bs = r := by
  induction bs with
  | nil => rfl
  | cons b bs ih => rw [runFrom_cons, step, h]; exact ih

theorem not_failed_of_append {cs : Bytes}
    (h : (runFrom (step cfg) r (bs ++ cs)).phase ≠ .failed) :
    (runFrom (step cfg) r bs).phase ≠ .failed := by
  intro hfailed
  rw [runFrom_append, run_failed hfailed] at h
  exact h hfailed

theorem tokens_complete (cfg : HttpConfig) (r : Reader) (what : Scan) (acc : Bytes) :
    r.tokens <+: (r.complete cfg what acc).tokens := by
  cases what with
  | header =>
      simp only [complete, onHeader]
      split
      · exact List.prefix_refl _
      · exact List.prefix_append _ _
  | size capture view =>
      simp only [complete]
      split <;> exact List.prefix_refl _
  | dataEnd capture view =>
      simp only [complete]
      split <;> exact List.prefix_refl _
  | trailers => exact List.prefix_refl _

theorem tokens_step (cfg : HttpConfig) (r : Reader) (b : UInt8) :
    r.tokens <+: (r.step cfg b).tokens := by
  unfold step
  split
  · dsimp only
    split_ifs
    · exact tokens_complete cfg { r with offset := r.offset + 1 } _ _
    · exact List.prefix_refl _
    · exact List.prefix_refl _
  · exact List.prefix_append _ _
  · exact List.prefix_refl _
  · exact List.prefix_refl _

/-- A token that was read stays read. -/
theorem tokens_run (cfg : HttpConfig) (r : Reader) (bs : Bytes) :
    r.tokens <+: (runFrom (step cfg) r bs).tokens := by
  induction bs generalizing r with
  | nil => exact List.prefix_refl _
  | cons b bs ih => exact (tokens_step cfg r b).trans (ih (r.step cfg b))

/-- The bytes of a body. -/
theorem run_body (cfg : HttpConfig) {remaining : Option ℕ} {capture : ℕ} {view : ContentView}
    {chunked : Bool}
    (hphase : r.phase = .body remaining capture view chunked) (hne : bs ≠ [])
    (hle : ∀ n ∈ remaining, bs.length ≤ n) :
    runFrom (step cfg) r bs = { r with
      phase := .afterBody remaining capture view chunked bs.length
      offset := r.offset + bs.length
      tokens := r.tokens ++ bodyTokens view r.offset (bs.take capture) } := by
  induction bs generalizing r remaining capture with
  | nil => exact absurd rfl hne
  | cons b bs ih =>
      have hone : (if capture = 0 then [] else [Token.body view r.offset b]) ++
          bodyTokens view (r.offset + 1) (bs.take (capture - 1)) =
          bodyTokens view r.offset ((b :: bs).take capture) := by
        cases capture with
        | zero => simp
        | succ capture => simp [bodyTokens_cons]
      rw [runFrom_cons]
      cases bs with
      | nil =>
          rw [← hone]
          simp [step, hphase]
      | cons b' bs =>
          have hmore : ∃ m, Phase.afterBody remaining capture view chunked 1 =
              .body m (capture - 1) view chunked ∧ (∀ n ∈ m, (b' :: bs).length ≤ n) ∧
              Phase.afterBody m (capture - 1) view chunked (b' :: bs).length =
                Phase.afterBody remaining capture view chunked (b :: b' :: bs).length := by
            cases remaining with
            | none =>
                refine ⟨none, rfl, by simp, ?_⟩
                simp only [Phase.afterBody, List.length_cons]
                congr 1
                omega
            | some n =>
                have hn := hle n rfl
                simp only [List.length_cons] at hn
                refine ⟨some (n - 1), ?_, ?_, ?_⟩
                · simp only [Phase.afterBody]
                  rw [if_neg (by omega)]
                · simp only [Option.mem_some_iff, List.length_cons]
                  omega
                · simp only [Phase.afterBody, List.length_cons]
                  have hsub : capture - 1 - (bs.length + 1) = capture - (bs.length + 1 + 1) := by
                    omega
                  have hrest : n - 1 - (bs.length + 1) = n - (bs.length + 1 + 1) := by omega
                  rw [hsub, hrest]
                  by_cases hlast : n ≤ bs.length + 1 + 1
                  · rw [if_pos hlast, if_pos (by omega)]
                  · rw [if_neg hlast, if_neg (by omega)]
          obtain ⟨m, hafter, hbound, hsame⟩ := hmore
          have hstep : step cfg r b = { r with
              phase := .body m (capture - 1) view chunked
              offset := r.offset + 1
              tokens := r.tokens ++ if capture = 0 then [] else [.body view r.offset b] } := by
            simp [step, hphase, hafter]
          rw [hstep, ih rfl (by simp) hbound, ← hone, hsame]
          simp only [List.length_cons, List.append_assoc]
          congr 1
          omega

/-- While nothing is complete the reader collects, unless it fails at the limit. -/
theorem run_scan_open {what : Scan} {acc : Bytes} (hphase : r.phase = .scan what acc)
    (hopen : ∀ w, w <+: bs → w ≠ [] → ¬what.Complete (acc ++ w))
    (hok : (runFrom (step cfg) r bs).phase ≠ .failed) :
    runFrom (step cfg) r bs = { r with
      phase := .scan what (acc ++ bs)
      offset := r.offset + bs.length } ∧
      (bs ≠ [] → ¬what.Overflows cfg.httpMaxHeaderBytes (acc ++ bs)) := by
  induction bs generalizing r acc with
  | nil =>
      refine ⟨?_, fun h ↦ absurd rfl h⟩
      rw [List.append_nil, ← hphase]
      rfl
  | cons b bs ih =>
      have hfirst : ¬what.Complete (acc ++ [b]) :=
        hopen [b] (by simp) (by simp)
      have hstep : step cfg r b = if what.Overflows cfg.httpMaxHeaderBytes (acc ++ [b]) then
          { r with offset := r.offset + 1 }.fail
          else { r with phase := .scan what (acc ++ [b]), offset := r.offset + 1 } := by
        simp [step, hphase, hfirst]
      rw [runFrom_cons, hstep] at hok ⊢
      split_ifs at hok ⊢ with hover
      · rw [run_failed rfl] at hok
        exact absurd rfl hok
      · have hrest : ∀ w, w <+: bs → w ≠ [] → ¬what.Complete (acc ++ [b] ++ w) := by
          intro w hw _
          rw [List.append_assoc]
          exact hopen ([b] ++ w) (by simpa using hw) (by simp)
        obtain ⟨hrun, hbelow⟩ := ih rfl hrest hok
        rw [hrun]
        refine ⟨?_, fun _ ↦ ?_⟩
        · simp only [List.append_assoc, List.singleton_append, List.length_cons]
          congr 1
          omega
        · by_cases hnil : bs = []
          · rwa [hnil]
          · have hlast := hbelow hnil
            rwa [List.append_assoc, List.singleton_append] at hlast

theorem run_open {what : Scan} (hphase : r.phase = .scan what [])
    (hopen : ∀ w, w <+: bs → w ≠ [] → ¬what.Complete w)
    (hok : (runFrom (step cfg) r bs).phase ≠ .failed) :
    runFrom (step cfg) r bs = { r with phase := .scan what bs, offset := r.offset + bs.length } ∧
      (bs ≠ [] → ¬what.Overflows cfg.httpMaxHeaderBytes bs) :=
  run_scan_open hphase hopen hok

/-- What was collected so far does not matter once it is complete. -/
theorem complete_phase (r : Reader) (phase : Phase) (what : Scan) (acc : Bytes) :
    complete cfg { r with phase := phase } what acc = complete cfg r what acc := by
  cases what with
  | header =>
      simp only [complete, onHeader]
      split <;> rfl
  | size capture view =>
      simp only [complete]
      split <;> rfl
  | dataEnd capture view =>
      simp only [complete]
      split <;> rfl
  | trailers => rfl

/-- The shortest complete piece is taken. -/
theorem run_scan_close {what : Scan} {w : Bytes} (hphase : r.phase = .scan what [])
    (hne : w ≠ []) (hcomplete : what.Complete w)
    (hshort : ∀ q, q <+: w → q ≠ w → q ≠ [] → ¬what.Complete q)
    (hok : (runFrom (step cfg) r w).phase ≠ .failed) :
    runFrom (step cfg) r w = complete cfg { r with offset := r.offset + w.length } what w := by
  obtain ⟨bs, b, rfl⟩ : ∃ bs b, w = bs ++ [b] := ⟨_, _, (List.dropLast_append_getLast hne).symm⟩
  have hopen : ∀ q, q <+: bs → q ≠ [] → ¬what.Complete q := by
    intro q hq hq'
    refine hshort q (hq.trans (List.prefix_append _ _)) ?_ hq'
    rintro rfl
    have hlen := hq.length_le
    simp at hlen
  obtain ⟨hrun, -⟩ := run_open hphase hopen (not_failed_of_append hok)
  rw [runFrom_append, hrun]
  simp only [runFrom_cons, runFrom_nil, step]
  rw [if_pos hcomplete]
  simp only [List.length_append, List.length_singleton, Nat.add_assoc]
  exact complete_phase { r with offset := r.offset + (bs.length + 1) } (.scan what bs) what _

/-- While nothing is complete and the limit is not reached the reader collects. -/
theorem run_scan_within {what : Scan} {acc : Bytes} (hphase : r.phase = .scan what acc)
    (hopen : ∀ w, w <+: bs → w ≠ [] → ¬what.Complete (acc ++ w))
    (hfits : ∀ w, w <+: bs → ¬what.Overflows cfg.httpMaxHeaderBytes (acc ++ w)) :
    runFrom (step cfg) r bs = { r with
      phase := .scan what (acc ++ bs)
      offset := r.offset + bs.length } := by
  induction bs generalizing r acc with
  | nil =>
      rw [List.append_nil, ← hphase]
      rfl
  | cons b bs ih =>
      have hfirst : [b] <+: b :: bs := ⟨bs, rfl⟩
      have hstep : step cfg r b =
          { r with phase := .scan what (acc ++ [b]), offset := r.offset + 1 } := by
        simp [step, hphase, hopen [b] hfirst (by simp), hfits [b] hfirst]
      have hlater : ∀ w, w <+: bs → [b] ++ w <+: b :: bs := fun w hw ↦ by simpa using hw
      rw [runFrom_cons, hstep, ih rfl]
      · simp only [List.append_assoc, List.singleton_append, List.length_cons]
        congr 1
        omega
      · intro w hw _
        rw [List.append_assoc]
        exact hopen _ (hlater w hw) (by simp)
      · intro w hw
        rw [List.append_assoc]
        exact hfits _ (hlater w hw)

/-- A piece that is complete only at its end, and within the limit before. -/
theorem run_piece {what : Scan} {w : Bytes} (hphase : r.phase = .scan what []) (hne : w ≠ [])
    (hcomplete : what.Complete w) (hshort : ∀ q, q <+: w → q ≠ w → q ≠ [] → ¬what.Complete q)
    (hfits : ∀ q, q <+: w → q ≠ w → ¬what.Overflows cfg.httpMaxHeaderBytes q) :
    runFrom (step cfg) r w = complete cfg { r with offset := r.offset + w.length } what w := by
  obtain ⟨bs, b, rfl⟩ : ∃ bs b, w = bs ++ [b] := ⟨_, _, (List.dropLast_append_getLast hne).symm⟩
  have hproper : ∀ q, q <+: bs → q <+: bs ++ [b] ∧ q ≠ bs ++ [b] := by
    intro q hq
    refine ⟨hq.trans (List.prefix_append _ _), ?_⟩
    rintro rfl
    have hlen := hq.length_le
    simp at hlen
  have hrun : runFrom (step cfg) r bs =
      { r with phase := .scan what bs, offset := r.offset + bs.length } :=
    run_scan_within hphase (fun q hq hq' ↦ hshort q (hproper q hq).1 (hproper q hq).2 hq')
      fun q hq ↦ hfits q (hproper q hq).1 (hproper q hq).2
  rw [runFrom_append, hrun]
  simp only [runFrom_cons, runFrom_nil, step]
  rw [if_pos hcomplete]
  simp only [List.length_append, List.length_singleton, Nat.add_assoc]
  exact complete_phase { r with offset := r.offset + (bs.length + 1) } (.scan what bs) what _

/-- A piece at the front of the bytes is taken, and the reader goes on after it. -/
theorem run_close {what : Scan} {k : ℕ} (hphase : r.phase = .scan what []) (hk : 0 < k)
    (hle : k ≤ bs.length) (hcomplete : what.Complete (bs.take k))
    (hshort : ∀ q, q <+: bs.take k → q ≠ bs.take k → q ≠ [] → ¬what.Complete q)
    (hok : (runFrom (step cfg) r bs).phase ≠ .failed) :
    (complete cfg { r with offset := r.offset + k } what (bs.take k)).phase ≠ .failed ∧
      runFrom (step cfg) (complete cfg { r with offset := r.offset + k } what (bs.take k))
        (bs.drop k) = runFrom (step cfg) r bs := by
  have hlen : (bs.take k).length = k := by
    rw [List.length_take]
    omega
  have hne : bs.take k ≠ [] := fun hnil ↦ by
    rw [hnil] at hlen
    exact hk.ne hlen
  rw [← List.take_append_drop k bs] at hok
  have hfirst := not_failed_of_append hok
  have hrun := run_scan_close hphase hne hcomplete hshort hfirst
  rw [hlen] at hrun
  rw [hrun] at hfirst
  refine ⟨hfirst, ?_⟩
  nth_rewrite 3 [← List.take_append_drop k bs]
  rw [runFrom_append, hrun]

end Run

section Words

variable {word v : Bytes} {pos : ℕ}

/-- The first occurrence of a word ends the shortest beginning that ends with it. -/
theorem shortest_of_first (hoccurs : OccursAt word v pos) (hle : pos + word.length ≤ v.length)
    (hfirst : ∀ i < pos, ¬OccursAt word v i) : word <:+ v.take (pos + word.length) ∧
      ∀ q, q <+: v.take (pos + word.length) → q ≠ v.take (pos + word.length) → ¬word <:+ q := by
  refine ⟨(suffix_take_iff hle).mpr ⟨Nat.le_add_left _ _, by rwa [Nat.add_sub_cancel]⟩, ?_⟩
  intro q hq hne hsuffix
  have hlen : q.length < pos + word.length := by
    rcases Nat.lt_or_ge q.length (pos + word.length) with hlt | hge
    · exact hlt
    · refine absurd (hq.eq_of_length_le ?_) hne
      rw [List.length_take]
      omega
  have hpre : q = v.take q.length :=
    List.prefix_iff_eq_take.mp (hq.trans (List.take_prefix _ _))
  rw [hpre] at hsuffix
  obtain ⟨hword, hearlier⟩ := (suffix_take_iff (by omega)).mp hsuffix
  exact hfirst _ (by omega) hearlier

theorem not_suffix_of_absent (h : ∀ i, ¬OccursAt word v i) {q : Bytes} (hq : q <+: v) :
    ¬word <:+ q := by
  intro hsuffix
  rw [List.prefix_iff_eq_take.mp hq] at hsuffix
  exact h _ ((suffix_take_iff hq.length_le).mp hsuffix).2

end Words

end Reader

end Bazalt.Http
