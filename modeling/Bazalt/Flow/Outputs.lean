import Bazalt.Flow.PrefixBudget
import Bazalt.Flow.Tiling
import Bazalt.Lib.Run

/-!
# What a shard sends on

The events of a flow are chunks and snapshots, and at the end one close if there was any
chunk; a flow without content sends nothing at all.  Chunks of a direction follow each
other in the stream: each of them starts where the one before it ends or later.  Stream
offsets stop at `2 ^ 64 - 1`.
-/

namespace Bazalt.Flow

open Bazalt.Lib Capture Services

/-! ## Chunks of one half -/

/-- Chunks that follow each other, from the offset `o` to the offset `o'`. -/
def Laid : ℕ → List (ℕ × Bytes) → ℕ → Prop
  | o, [], o' => o ≤ o'
  | o, c :: cs, o' => o ≤ c.1 ∧ c.1 ≤ u64Max ∧ c.2 ≠ [] ∧ Laid (satAdd c.1 c.2.length) cs o'

theorem Laid.mono_left {o o' o'' : ℕ} {cs : List (ℕ × Bytes)} (h : Laid o' cs o'') (hle : o ≤ o') :
    Laid o cs o'' := by
  cases cs with
  | nil => exact hle.trans h
  | cons c cs => exact ⟨hle.trans h.1, h.2⟩

theorem Laid.append {o o' o'' : ℕ} {cs ds : List (ℕ × Bytes)} (h : Laid o cs o')
    (h' : Laid o' ds o'') : Laid o (cs ++ ds) o'' := by
  induction cs generalizing o with
  | nil => exact h'.mono_left h
  | cons c cs ih => exact ⟨h.1, h.2.1, h.2.2.1, ih h.2.2.2⟩

/-- Each chunk starts no earlier than the end of every chunk before it, up to the last offset. -/
theorem Laid.pairwise {o o' : ℕ} {cs : List (ℕ × Bytes)} (h : Laid o cs o') :
    (∀ c ∈ cs, o ≤ c.1 ∧ c.1 ≤ u64Max ∧ c.2 ≠ []) ∧
      cs.Pairwise fun c c' ↦ c.1 + c.2.length ≤ c'.1 ∨ c'.1 = u64Max := by
  induction cs generalizing o with
  | nil => exact ⟨by simp, .nil⟩
  | cons c cs ih =>
      obtain ⟨hle, hmax, hne, hrest⟩ := h
      obtain ⟨hall, hpairwise⟩ := ih hrest
      have hforward : c.1 ≤ satAdd c.1 c.2.length := le_satAdd hmax
      refine ⟨fun d hd ↦ ?_, List.pairwise_cons.mpr ⟨fun d hd ↦ ?_, hpairwise⟩⟩
      · rcases List.mem_cons.mp hd with rfl | hd
        · exact ⟨hle, hmax, hne⟩
        · obtain ⟨hstart, hrest⟩ := hall d hd
          exact ⟨(hle.trans hforward).trans hstart, hrest⟩
      · obtain ⟨hstart, hend, -⟩ := hall d hd
        rw [satAdd] at hstart
        omega

namespace Pass

/-- The chunks that the pass adds follow each other between the two stream offsets. -/
def Lays (w w' : Pass) : Prop :=
  ∃ cs, w'.out.emitted = w.out.emitted ++ cs ∧
    Laid w.half.streamOffset (cs.map (·.placed)) w'.half.streamOffset

theorem Lays.of_eq {w w' : Pass} (hchunks : w'.out.emitted = w.out.emitted)
    (hoff : w.half.streamOffset ≤ w'.half.streamOffset) : Lays w w' :=
  ⟨[], by rw [hchunks, List.append_nil], hoff⟩

theorem Lays.trans {w w' w'' : Pass} (h : Lays w w') (h' : Lays w' w'') : Lays w w'' := by
  obtain ⟨cs, hcs, hlaid⟩ := h
  obtain ⟨ds, hds, hlaid'⟩ := h'
  refine ⟨cs ++ ds, by rw [hds, hcs, List.append_assoc], ?_⟩
  rw [List.map_append]
  exact hlaid.append hlaid'

theorem lays_push {w : Pass} (hoff : w.half.streamOffset ≤ u64Max) {data : Bytes} (hne : data ≠ [])
    (tsNs : ℕ) : Lays w (w.push data tsNs) :=
  ⟨[⟨w.half.streamOffset, tsNs, data⟩], rfl, le_rfl, hoff, hne, le_rfl⟩

theorem Micro.lays {w w' : Pass} (hs : Micro w w') {n : ℕ} (h : w.half.Sound n) : Lays w w' := by
  have hoff : w.half.streamOffset ≤ u64Max := h.offset_le.trans h.le
  cases hs with
  | @chunk m segment _ _ hfirst =>
      have hne := h.buffered.tidy.nonempty _ (Lib.OrdMap.mem_of_first? hfirst)
      exact lays_push (w := w.popFirst segment) hoff hne segment.tsNs
  | drop => exact .of_eq rfl le_rfl
  | gap => exact .of_eq rfl (le_satAdd hoff)
  | close => exact .of_eq rfl le_rfl
  | stamp ts => exact .of_eq rfl le_rfl

theorem Path.lays {w w' : Pass} (hp : Path w w') {n : ℕ} (h : w.half.Sound n) : Lays w w' := by
  induction hp with
  | refl => exact .of_eq rfl le_rfl
  | tail hp hs ih =>
      obtain ⟨m, -, hm⟩ := Path.sound hp h
      exact ih.trans (hs.lays hm)

end Pass

namespace TcpHalf

/-- A half that no call has touched yet, or one between two calls. -/
def Ready (h : TcpHalf) : Prop := h = {} ∨ ∃ n, h.Idle n

theorem Ready.offset_le {h : TcpHalf} (hr : h.Ready) : h.streamOffset ≤ u64Max := by
  rcases hr with rfl | ⟨n, hn⟩
  · exact Nat.zero_le _
  · exact hn.sound.offset_le.trans hn.sound.le

theorem Does.lays {h : TcpHalf} {n : ℕ} {c : Call} {w' : Pass} (hi : h.Idle n)
    (hd : Does h n c w') : Pass.Lays { half := h } w' := by
  cases hd with
  | @walk c w w' hnoted _ hemitted _ _ hp =>
      have hstart : Pass.Lays { half := h } w := by
        refine .of_eq hemitted (le_of_eq ?_)
        rw [hnoted]
      exact hstart.trans (hp.lays (hnoted.sound hi.sound))
  | @store seq syn fin tsNs data lim w w' hopen hstores hp =>
      have hmark := h.arrive_remarked seq syn fin data n
      have hout := h.arrive_out seq syn fin data n
      have hs := arrive_sound hi.sound hopen seq syn fin data
      generalize h.arrive seq syn fin data n = a at hstores hmark hout hs
      have hoff : a.pass.half.streamOffset ≤ u64Max := hs.offset_le.trans hs.le
      have hfin : a.pass.half.finConsumed = false := by rw [hmark.half, hopen]
      have hstart : Pass.Lays { half := h } a.pass := by
        refine .of_eq ?_ (le_of_eq ?_)
        · rw [hout]
        · rw [hmark.half]
      refine hstart.trans ?_
      cases hstores with
      | nothing => exact hp.lays hs
      | buffer hne hcase hlo hins =>
          have hinserted : Pass.Lays a.pass w := by
            refine .of_eq ?_ (le_of_eq ?_)
            · rw [hins.out]
            · rw [hins.half]
          have hsat := satAdd_le_add (extendSeq (payloadSeq seq syn) n) a.data.length
          exact hinserted.trans (hp.lays (hins.sound hs hfin (by omega)))
      | direct hle hlt hempty hw₀ =>
          have hdrop : a.data.drop (n - extendSeq (payloadSeq seq syn) n) ≠ [] := by
            rw [ne_eq, List.drop_eq_nil_iff]
            omega
          rcases hw₀ with rfl | rfl
          · exact (Pass.lays_push hoff hdrop tsNs).trans
              (hp.lays (Pass.push_sound hs hempty hfin _ tsNs))
          · exact (Pass.lays_push (w := a.pass.markRetransmit) hoff hdrop tsNs).trans
              (hp.lays (Pass.push_sound (w := a.pass.markRetransmit) hs hempty hfin _ tsNs))
      | replay hne hle hempty =>
          exact (Pass.lays_push (w := a.pass.markRetransmit) hoff hne tsNs).trans
            (hp.lays (Pass.push_sound (w := a.pass.markRetransmit) hs hempty hfin _ tsNs))

/-- The chunks of a call follow each other from the stream offset before it. -/
theorem Ready.step {h : TcpHalf} (hr : h.Ready) (c : Call) : (h.step c).half.Ready ∧
    Laid h.streamOffset ((h.step c).out.emitted.map (·.placed)) (h.step c).half.streamOffset := by
  have hidle : ∀ {g : TcpHalf} {n : ℕ}, g.Idle n → g.streamOffset = h.streamOffset →
      g.step c = h.step c → (h.step c).half.Ready ∧ Laid h.streamOffset
        ((h.step c).out.emitted.map (·.placed)) (h.step c).half.streamOffset := by
    intro g n hg hoff hstep
    obtain ⟨hdoes, m, -, hm⟩ := hg.step c
    obtain ⟨hprimed, hnoted⟩ := hg.primed c
    obtain ⟨cs, hcs, hlaid⟩ := hdoes.lays hprimed
    have hsame : (g.primed c).streamOffset = h.streamOffset := by
      rw [hnoted]
      exact hoff
    rw [hstep] at hm hcs hlaid
    rw [hcs]
    exact ⟨.inr ⟨m, hm⟩, by simpa [hsame] using hlaid⟩
  rcases hr with rfl | ⟨n, hn⟩
  · cases hc : c.origin? with
    | none =>
        rw [step_default hc]
        exact ⟨.inl rfl, le_rfl⟩
    | some o =>
        refine hidle (primed_idle_of_default hc) ?_ (step_primed _ c)
        rw [primed_eq]
  · exact hidle hn rfl rfl

end TcpHalf

/-! ## Events of one flow -/

def FlowOutput.isChunk : FlowOutput → Bool
  | chunk _ => true
  | _ => false

def FlowOutput.isClosed : FlowOutput → Bool
  | closed _ => true
  | _ => false

/-- The chunk of an event, if it has one in the direction. -/
def FlowOutput.chunkOf? (d : Direction) : FlowOutput → Option (ℕ × Bytes)
  | chunk c => if c.direction = d then some (c.offset, c.data) else none
  | _ => none

/-- The chunks of a direction, in the order of the events. -/
def chunksOf (d : Direction) (events : List FlowOutput) : List (ℕ × Bytes) :=
  events.filterMap (FlowOutput.chunkOf? d)

theorem chunksOf_append (d : Direction) (as bs : List FlowOutput) :
    chunksOf d (as ++ bs) = chunksOf d as ++ chunksOf d bs := List.filterMap_append

/-- The events of a flow that is in the table.  `shown` says whether it has sent content. -/
structure FlowState.Tells (f : FlowState) (shown : Bool) (events : List FlowOutput) : Prop where
  running : ∀ e ∈ events, e.isClosed = false
  content : shown = true ↔ ∃ e ∈ events, e.isChunk = true
  silent : shown = false → events = []
  laid : ∀ d, Laid 0 (chunksOf d events) (f.half d).streamOffset
  ready : f.key.protocol = .tcp → ∀ d, (f.half d).Ready
  bound : ∀ d, (f.half d).streamOffset ≤ u64Max

@[simp] theorem FlowState.half_setHalf_self (f : FlowState) (d : Direction) (h : TcpHalf) :
    (f.setHalf d h).half d = h := by
  cases d <;> rfl

theorem FlowState.half_setHalf_of_ne (f : FlowState) {d d' : Direction} (hne : d' ≠ d)
    (h : TcpHalf) : (f.setHalf d h).half d' = f.half d' := by
  cases d <;> cases d' <;> first | rfl | exact absurd rfl hne

namespace FlowState.Tells

variable {f g : FlowState} {shown : Bool} {events : List FlowOutput}

/-- Only the halves and the key of the flow matter. -/
theorem congr (h : f.Tells shown events) (hkey : g.key = f.key) (hhalf : ∀ d, g.half d = f.half d) :
    g.Tells shown events :=
  ⟨h.running, h.content, h.silent, fun d ↦ hhalf d ▸ h.laid d,
    fun htcp d ↦ hhalf d ▸ h.ready (hkey ▸ htcp) d, fun d ↦ hhalf d ▸ h.bound d⟩

/-- One half moves on and sends chunks. -/
theorem chunks (h : f.Tells shown events) {d : Direction} (half : TcpHalf)
    (cs : List StreamChunk) (hdirection : ∀ c ∈ cs, c.direction = d)
    (hlaid : Laid (f.half d).streamOffset (cs.map fun c ↦ (c.offset, c.data)) half.streamOffset)
    (hready : f.key.protocol = .tcp → half.Ready) (hbound : half.streamOffset ≤ u64Max) :
    (f.setHalf d half).Tells (shown || !cs.isEmpty) (events ++ cs.map .chunk) := by
  have hkey : (f.setHalf d half).key = f.key := (f.alike_setHalf d half).key
  refine ⟨?_, ?_, ?_, fun d' ↦ ?_, fun htcp d' ↦ ?_, fun d' ↦ ?_⟩
  · intro e he
    rcases List.mem_append.mp he with he | he
    · exact h.running e he
    · obtain ⟨c, -, rfl⟩ := List.mem_map.mp he
      rfl
  · rw [Bool.or_eq_true, h.content]
    constructor
    · rintro (⟨e, he, hchunk⟩ | hne)
      · exact ⟨e, List.mem_append_left _ he, hchunk⟩
      · obtain ⟨c, hc⟩ := List.exists_mem_of_ne_nil cs (by simpa using hne)
        exact ⟨.chunk c, List.mem_append_right _ (List.mem_map_of_mem hc), rfl⟩
    · rintro ⟨e, he, hchunk⟩
      rcases List.mem_append.mp he with he | he
      · exact .inl ⟨e, he, hchunk⟩
      · obtain ⟨c, hc, rfl⟩ := List.mem_map.mp he
        exact .inr (by simpa using List.ne_nil_of_mem hc)
  · intro hshown
    obtain ⟨hold, hnone⟩ := Bool.or_eq_false_iff.mp hshown
    have hcs : cs = [] := by simpa using hnone
    rw [h.silent hold, hcs]
    rfl
  · rw [chunksOf_append]
    have hchunks : chunksOf d' (cs.map .chunk) =
        if d' = d then cs.map (fun c ↦ (c.offset, c.data)) else [] := by
      rw [chunksOf, List.filterMap_map]
      split_ifs with hd
      · subst hd
        rw [← List.filterMap_eq_map]
        exact List.filterMap_congr fun c hc ↦ by simp [FlowOutput.chunkOf?, hdirection c hc]
      · refine List.filterMap_eq_nil_iff.mpr fun c hc ↦ ?_
        have hne : ¬ d = d' := fun e ↦ hd e.symm
        simp [FlowOutput.chunkOf?, hdirection c hc, hne]
    rw [hchunks]
    by_cases hd : d' = d
    · subst hd
      rw [if_pos rfl, half_setHalf_self]
      exact (h.laid d').append hlaid
    · rw [if_neg hd, List.append_nil, half_setHalf_of_ne f hd]
      exact h.laid d'
  · by_cases hd : d' = d
    · subst hd
      rw [half_setHalf_self]
      exact hready (hkey ▸ htcp)
    · rw [half_setHalf_of_ne f hd]
      exact h.ready (hkey ▸ htcp) d'
  · by_cases hd : d' = d
    · subst hd
      rwa [half_setHalf_self]
    · rw [half_setHalf_of_ne f hd]
      exact h.bound d'

/-- A snapshot of a flow that has sent content. -/
theorem snapshot (h : f.Tells true events) (summary : FlowSummary) :
    f.Tells true (events ++ [.snapshot summary]) := by
  refine ⟨?_, ?_, by simp, fun d ↦ ?_, h.ready, h.bound⟩
  · intro e he
    rcases List.mem_append.mp he with he | he
    · exact h.running e he
    · rw [List.mem_singleton.mp he]
      rfl
  · obtain ⟨e, he, hchunk⟩ := h.content.mp rfl
    exact ⟨fun _ ↦ ⟨e, List.mem_append_left _ he, hchunk⟩, fun _ ↦ rfl⟩
  · rw [chunksOf_append]
    exact (h.laid d).append (le_refl (f.half d).streamOffset)

end FlowState.Tells

/-- A flow between its events, and the events it has sent since it was taken from the table. -/
structure Sending.Tells (s : Sending) (before : List FlowOutput) : Prop where
  own : ∀ e ∈ s.out, e.flowId = s.flow.id
  events : s.flow.Tells (s.flow.visible || s.emitted) (before ++ s.out)

namespace Sending

variable {accepts : FlowOutput → Bool} {s : Sending} {before : List FlowOutput}

theorem send_of_accepts (haccepts : ∀ e, accepts e = true) (s : Sending) (event : FlowOutput) :
    s.send accepts event = { s with out := s.out ++ [event] } := by
  rw [send, if_pos (haccepts event)]

theorem sendChunks_of_accepts (haccepts : ∀ e, accepts e = true) (d : Direction)
    (cs : List ReassembledChunk) (s : Sending) : sendChunks accepts d cs s =
      { s with out := s.out ++ (cs.map (chunkOf s.flow d)).map .chunk } := by
  induction cs generalizing s with
  | nil => simp [sendChunks]
  | cons c cs ih =>
      rw [sendChunks, if_pos (haccepts _), send_of_accepts haccepts, ih]
      simp

theorem Tells.call (h : s.Tells before) (haccepts : ∀ e, accepts e = true)
    (htcp : s.flow.key.protocol = .tcp) (d : Direction) (c : Call) :
    (s.call accepts d c).Tells before := by
  obtain ⟨hready, hlaid⟩ := (h.events.ready htcp d).step c
  rw [Sending.call, emitTcpOutcome, sendChunks_of_accepts haccepts]
  generalize (s.flow.half d).step c = w at *
  have hid : (s.setHalf d w.half).flow.id = s.flow.id := (s.alike_setHalf d w.half).id
  have hvisible : (s.setHalf d w.half).flow.visible = s.flow.visible := by
    cases d <;> rfl
  constructor
  · intro e he
    rcases List.mem_append.mp he with he | he
    · exact (h.own e he).trans hid.symm
    · obtain ⟨c, hc, rfl⟩ := List.mem_map.mp he
      obtain ⟨c, hc, rfl⟩ := List.mem_map.mp hc
      rfl
  · have hchunks := h.events.chunks w.half
      (w.out.emitted.map (chunkOf (s.setHalf d w.half).flow d))
      (fun c hc ↦ by obtain ⟨c, -, rfl⟩ := List.mem_map.mp hc; rfl)
      (by simpa [chunkOf, ReassembledChunk.placed, Function.comp_def] using hlaid)
      (fun _ ↦ hready) hready.offset_le
    rw [List.isEmpty_map, List.append_assoc] at hchunks
    dsimp only
    rw [hvisible, ← Bool.or_assoc]
    exact hchunks

theorem Tells.acknowledge (h : s.Tells before) (haccepts : ∀ e, accepts e = true)
    (htcp : s.flow.key.protocol = .tcp) (cfg : FlowConfig) (p : ParsedPacket) (rst : Bool) :
    (s.acknowledge accepts cfg p rst).Tells before := by
  unfold Sending.acknowledge
  split
  · split
    · exact h.call haccepts htcp _ _
    · exact h
  · exact h

theorem Tells.accept (h : s.Tells before) (haccepts : ∀ e, accepts e = true)
    (htcp : s.flow.key.protocol = .tcp) (cfg : FlowConfig) (p : ParsedPacket) :
    (s.accept accepts cfg p).Tells before := by
  unfold Sending.accept
  split_ifs
  · exact h
  · exact h.call haccepts htcp _ _
  · exact h

theorem Tells.handleUdp (h : s.Tells before) (haccepts : ∀ e, accepts e = true)
    (hudp : s.flow.key.protocol = .udp) (p : ParsedPacket) :
    (s.handleUdp accepts p).Tells before := by
  unfold Sending.handleUdp
  split_ifs with hempty
  · exact h
  · rw [send_of_accepts haccepts]
    have hbound := h.events.bound p.direction
    have hchunk := h.events.chunks
      ((s.flow.half p.direction).reserveUdpOffset p.payload.length).1 [udpChunk s.flow p]
      (fun c hc ↦ by rw [List.mem_singleton.mp hc]; rfl)
      ⟨le_rfl, hbound, fun hnil ↦ hempty (List.isEmpty_iff.mpr hnil), le_rfl⟩
      (fun htcp ↦ by rw [hudp] at htcp; cases htcp) (satAdd_le _ _)
    constructor
    · intro e he
      rcases List.mem_append.mp he with he | he
      · exact (h.own e he).trans (s.alike_setHalf p.direction _).id.symm
      · rw [List.mem_singleton.mp he]
        exact (s.alike_setHalf p.direction _).id.symm
    · have hemitted : (s.flow.visible || s.emitted || !([udpChunk s.flow p] : List _).isEmpty) =
          true := by simp
      rw [hemitted, List.append_assoc] at hchunk
      simp only [markEmitted, Bool.or_true]
      exact hchunk

theorem Tells.content (h : s.Tells before) (haccepts : ∀ e, accepts e = true)
    (cfg : FlowConfig) (p : ParsedPacket) (hkey : s.flow.key = p.key) :
    (s.content accepts cfg p).Tells before := by
  unfold Sending.content
  cases hprotocol : p.key.protocol with
  | tcp =>
      have htcp : s.flow.key.protocol = .tcp := by rw [hkey, hprotocol]
      refine (h.acknowledge haccepts htcp cfg p _).accept haccepts ?_ cfg p
      rw [(alike_acknowledge cfg p _ s).key]
      exact htcp
  | udp => exact h.handleUdp haccepts (by rw [hkey, hprotocol]) p

/-- After the snapshot the flow is visible if it has sent content. -/
theorem Tells.snapshot (h : s.Tells before) (haccepts : ∀ e, accepts e = true) (cfg : FlowConfig)
    (now : ℕ) : (∀ e ∈ (s.snapshot accepts cfg now).out,
        e.flowId = (s.snapshot accepts cfg now).flow.id) ∧
      (s.snapshot accepts cfg now).flow.Tells (s.snapshot accepts cfg now).flow.visible
        (before ++ (s.snapshot accepts cfg now).out) := by
  have hevents := h.events
  unfold Sending.snapshot
  split_ifs with hshow
  · rw [send_of_accepts haccepts]
    have hemitted : s.emitted = true := (Bool.and_eq_true_iff.mp hshow).1
    rw [hemitted, Bool.or_true] at hevents
    constructor
    · intro e he
      rcases List.mem_append.mp he with he | he
      · exact h.own e he
      · rw [List.mem_singleton.mp he]
        simp only [FlowOutput.flowId, FlowState.summary]
        split <;> rfl
    · have hsnapshot := (hevents.congr (g := (s.visibleAt now).flow) rfl
        (fun d ↦ by cases d <;> rfl)).snapshot (s.visibleAt now).flow.summary
      rw [List.append_assoc] at hsnapshot
      exact hsnapshot
  · refine ⟨h.own, ?_⟩
    have hvisible : (s.flow.visible || s.emitted) = s.flow.visible := by
      cases hv : s.flow.visible with
      | true => rfl
      | false => simpa [hv] using hshow
    rwa [hvisible] at hevents

end Sending

/-- A flow of the table with the events it has sent so far. -/
def FlowState.Told (f : FlowState) (events : List FlowOutput) : Prop := f.Tells f.visible events

/-- The events of a flow that has left the table. -/
inductive Ended : List FlowOutput → Prop
  | silent : Ended []
  | closed {events : List FlowOutput} (running : ∀ e ∈ events, e.isClosed = false)
      (content : ∃ e ∈ events, e.isChunk = true)
      (laid : ∀ d, ∃ o, Laid 0 (chunksOf d events) o) (summary : FlowSummary) :
      Ended (events ++ [.closed summary])

namespace FlowState

variable {accepts : FlowOutput → Bool} {f : FlowState} {events : List FlowOutput}

theorem Told.handle (h : f.Told events) (haccepts : ∀ e, accepts e = true) (cfg : FlowConfig)
    (clock : Clock) (p : ParsedPacket) (hkey : f.key = p.key) :
    (∀ e ∈ (f.handle accepts cfg clock p).out, e.flowId = f.id) ∧
      (f.handle accepts cfg clock p).flow.Told (events ++ (f.handle accepts cfg clock p).out) := by
  obtain ⟨cid, ckey, -, -⟩ := f.countPacket_eq p clock.activity
  have hid := (f.alike_handle accepts cfg clock p).id.trans cid
  have hhalf : ∀ d, (f.countPacket p clock.activity).half d = f.half d := by
    intro d
    unfold countPacket
    cases p.direction <;> cases d <;> rfl
  have hvisible : (f.countPacket p clock.activity).visible = f.visible := by
    unfold countPacket
    cases p.direction <;> rfl
  have hstart : Sending.Tells ⟨f.countPacket p clock.activity, [], false⟩ events := by
    refine ⟨by simp, ?_⟩
    simp only [hvisible, Bool.or_false, List.append_nil]
    exact Tells.congr h ckey hhalf
  obtain ⟨hown, htold⟩ := (hstart.content haccepts cfg p (ckey.trans hkey)).snapshot haccepts cfg
    clock.snapshot
  exact ⟨fun e he ↦ (hown e he).trans hid, htold⟩

theorem Told.finalizeTcpHalves (h : f.Told events) (haccepts : ∀ e, accepts e = true) :
    (f.finalizeTcpHalves accepts).flow.id = f.id ∧
      (∀ e ∈ (f.finalizeTcpHalves accepts).out, e.flowId = f.id) ∧
      (f.finalizeTcpHalves accepts).flow.Tells (f.finalizeTcpHalves accepts).flow.visible
        (events ++ (f.finalizeTcpHalves accepts).out) := by
  have hstart : Sending.Tells ⟨f, [], false⟩ events := by
    refine ⟨by simp, ?_⟩
    simpa [Told] using h
  unfold FlowState.finalizeTcpHalves
  cases hprotocol : f.key.protocol with
  | udp => exact ⟨rfl, by simp, by simpa [Told] using h⟩
  | tcp =>
      have hfirst := hstart.call haccepts hprotocol .aToB (.finalize f.lastSeenNs)
      have halike : f.Alike (Sending.call accepts ⟨f, [], false⟩ .aToB
        (.finalize f.lastSeenNs)).flow := Sending.alike_call ⟨f, [], false⟩ _ _
      have hsecond := hfirst.call haccepts (by rw [halike.key]; exact hprotocol) .bToA
        (.finalize f.lastSeenNs)
      have hid : (Sending.call accepts (Sending.call accepts ⟨f, [], false⟩ .aToB
          (.finalize f.lastSeenNs)) .bToA (.finalize f.lastSeenNs)).flow.id = f.id :=
        (Sending.alike_call _ _ _).id.trans halike.id
      dsimp only
      generalize Sending.call accepts (Sending.call accepts ⟨f, [], false⟩ .aToB
        (.finalize f.lastSeenNs)) .bToA (.finalize f.lastSeenNs) = s at *
      obtain ⟨hown, hevents⟩ := hsecond
      split_ifs with hemitted
      · refine ⟨hid, fun e he ↦ (hown e he).trans hid, ?_⟩
        rw [hemitted, Bool.or_true] at hevents
        exact hevents.congr rfl fun d ↦ by cases d <;> rfl
      · refine ⟨hid, fun e he ↦ (hown e he).trans hid, ?_⟩
        rw [Bool.eq_false_iff.mpr hemitted, Bool.or_false] at hevents
        exact hevents

/-- Closing a flow completes its events. -/
theorem Told.finish (h : f.Told events) (haccepts : ∀ e, accepts e = true) :
    (∀ e ∈ f.finish accepts, e.flowId = f.id) ∧ Ended (events ++ f.finish accepts) := by
  obtain ⟨hid, hown, htells⟩ := h.finalizeTcpHalves haccepts
  unfold FlowState.finish
  dsimp only
  generalize f.finalizeTcpHalves accepts = s at *
  rw [haccepts, Bool.and_true]
  split_ifs with hvisible
  · constructor
    · intro e he
      rcases List.mem_append.mp he with he | he
      · exact hown e he
      · rw [List.mem_singleton.mp he, ← hid]
        simp only [FlowOutput.flowId, FlowState.summary]
        split <;> rfl
    · rw [← List.append_assoc]
      exact .closed htells.running (htells.content.mp hvisible) (fun d ↦ ⟨_, htells.laid d⟩) _
  · refine ⟨hown, ?_⟩
    rw [htells.silent (by simpa using hvisible)]
    exact .silent

end FlowState

/-! ## Events of a shard -/

def eventsOf (id : Uuid) (log : List FlowOutput) : List FlowOutput :=
  log.filter fun e ↦ decide (e.flowId = id)

section EventsOf

variable {id other : Uuid} {log out : List FlowOutput}

theorem eventsOf_append_own (h : ∀ e ∈ out, e.flowId = id) :
    eventsOf id (log ++ out) = eventsOf id log ++ out := by
  rw [eventsOf, List.filter_append, ← eventsOf, List.filter_eq_self.mpr]
  exact fun e he ↦ decide_eq_true (h e he)

theorem eventsOf_append_other (h : ∀ e ∈ out, e.flowId = id) (hne : other ≠ id) :
    eventsOf other (log ++ out) = eventsOf other log := by
  rw [eventsOf, List.filter_append, ← eventsOf, List.filter_eq_nil_iff.mpr, List.append_nil]
  intro e he
  rw [h e he]
  simpa using hne.symm

end EventsOf

/-- The flows of a table, the events that were sent and the identifiers that were given. -/
structure Books (flows : Table FlowKey FlowState) (log : List FlowOutput) (created : List Uuid) :
    Prop where
  told : ∀ key f, flows.lookup key = some f →
    f.key = key ∧ f.id ∈ created ∧ f.Told (eventsOf f.id log)
  distinct : ∀ key key' f f', flows.lookup key = some f → flows.lookup key' = some f' →
    f.id = f'.id → key = key'
  known : ∀ e ∈ log, e.flowId ∈ created
  ended : ∀ id, (∀ key f, flows.lookup key = some f → f.id ≠ id) → Ended (eventsOf id log)

namespace Books

variable {flows : Table FlowKey FlowState} {log out : List FlowOutput} {created : List Uuid}
  {key : FlowKey} {f g : FlowState}

theorem known_append (h : Books flows log created) {id : Uuid} (hid : id ∈ created)
    (hout : ∀ e ∈ out, e.flowId = id) : ∀ e ∈ log ++ out, e.flowId ∈ created := by
  intro e he
  rcases List.mem_append.mp he with he | he
  · exact h.known e he
  · exact hout e he ▸ hid

/-- A flow sends events. -/
theorem update (h : Books flows log created) (hf : flows.lookup key = some f)
    (hid : g.id = f.id) (hkey : g.key = f.key) (hout : ∀ e ∈ out, e.flowId = f.id)
    (hg : g.Told (eventsOf f.id log ++ out)) :
    Books (flows.insert key g) (log ++ out) created := by
  obtain ⟨hown, hcreated, -⟩ := h.told key f hf
  -- every other flow of the new table is one of the old table, with another identifier
  have hcases : ∀ k f', (flows.insert key g).lookup k = some f' →
      k = key ∧ f' = g ∨ k ≠ key ∧ flows.lookup k = some f' ∧ f'.id ≠ f.id := by
    intro k f' hk
    by_cases hkk : k = key
    · subst hkk
      rw [AList.lookup_insert] at hk
      exact .inl ⟨rfl, (Option.some.inj hk).symm⟩
    · rw [AList.lookup_insert_ne hkk] at hk
      exact .inr ⟨hkk, hk, fun e ↦ hkk (h.distinct k key f' f hk hf e)⟩
  refine ⟨fun k f' hk ↦ ?_, fun k k' f₁ f₂ hk hk' he ↦ ?_, h.known_append hcreated hout,
    fun id hid' ↦ ?_⟩
  · rcases hcases k f' hk with ⟨rfl, rfl⟩ | ⟨-, hk, hne⟩
    · refine ⟨hkey.trans hown, hid ▸ hcreated, ?_⟩
      rw [hid, eventsOf_append_own hout]
      exact hg
    · obtain ⟨hown', hcreated', htold⟩ := h.told k f' hk
      exact ⟨hown', hcreated', by rwa [eventsOf_append_other hout hne]⟩
  · rcases hcases k f₁ hk with ⟨rfl, rfl⟩ | ⟨hne, hk, hid₁⟩
    · rcases hcases k' f₂ hk' with ⟨rfl, rfl⟩ | ⟨-, -, hid₂⟩
      · rfl
      · exact absurd (he.symm.trans hid) hid₂
    · rcases hcases k' f₂ hk' with ⟨rfl, rfl⟩ | ⟨-, hk', -⟩
      · exact absurd (he.trans hid) hid₁
      · exact h.distinct k k' f₁ f₂ hk hk' he
  · have hne : id ≠ f.id := fun e ↦
      hid' key g (AList.lookup_insert _) (hid.trans e.symm)
    rw [eventsOf_append_other hout hne]
    refine h.ended id fun k f' hk ↦ ?_
    by_cases hkk : k = key
    · subst hkk
      obtain rfl : f = f' := Option.some.inj (hf.symm.trans hk)
      exact hne.symm
    · exact hid' k f' (by rwa [AList.lookup_insert_ne hkk])

/-- A flow sends its last events and leaves the table. -/
theorem close (h : Books flows log created) (hf : flows.lookup key = some f)
    (hout : ∀ e ∈ out, e.flowId = f.id) (hended : Ended (eventsOf f.id log ++ out)) :
    Books (flows.erase key) (log ++ out) created := by
  obtain ⟨-, hcreated, -⟩ := h.told key f hf
  have hcases : ∀ k f', (flows.erase key).lookup k = some f' →
      flows.lookup k = some f' ∧ f'.id ≠ f.id := by
    intro k f' hk
    by_cases hkk : k = key
    · subst hkk
      simp at hk
    · rw [AList.lookup_erase_ne hkk] at hk
      exact ⟨hk, fun e ↦ hkk (h.distinct k key f' f hk hf e)⟩
  refine ⟨fun k f' hk ↦ ?_, fun k k' f₁ f₂ hk hk' he ↦ ?_, h.known_append hcreated hout,
    fun id hid ↦ ?_⟩
  · obtain ⟨hk, hne⟩ := hcases k f' hk
    obtain ⟨hown, hcreated', htold⟩ := h.told k f' hk
    exact ⟨hown, hcreated', by rwa [eventsOf_append_other hout hne]⟩
  · exact h.distinct k k' f₁ f₂ (hcases k f₁ hk).1 (hcases k' f₂ hk').1 he
  · by_cases hne : id = f.id
    · subst hne
      rwa [eventsOf_append_own hout]
    · rw [eventsOf_append_other hout hne]
      refine h.ended id fun k f' hk ↦ ?_
      by_cases hkk : k = key
      · subst hkk
        obtain rfl : f = f' := Option.some.inj (hf.symm.trans hk)
        exact fun e ↦ hne e.symm
      · exact hid k f' (by rwa [AList.lookup_erase_ne hkk])

/-- A flow with a fresh identifier enters the table with its first events. -/
theorem enter (h : Books flows log created) (hvacant : flows.lookup key = none)
    (hfresh : g.id ∉ created) (hkey : g.key = key) (hout : ∀ e ∈ out, e.flowId = g.id)
    (hg : g.Told out) : Books (flows.insert key g) (log ++ out) (created ++ [g.id]) := by
  have hsilent : eventsOf g.id log = [] := by
    refine List.filter_eq_nil_iff.mpr fun e he ↦ ?_
    have hne : e.flowId ≠ g.id := fun e' ↦ hfresh (e' ▸ h.known e he)
    simpa using hne
  have hcases : ∀ k f', (flows.insert key g).lookup k = some f' →
      k = key ∧ f' = g ∨ k ≠ key ∧ flows.lookup k = some f' ∧ f'.id ≠ g.id := by
    intro k f' hk
    by_cases hkk : k = key
    · subst hkk
      rw [AList.lookup_insert] at hk
      exact .inl ⟨rfl, (Option.some.inj hk).symm⟩
    · rw [AList.lookup_insert_ne hkk] at hk
      exact .inr ⟨hkk, hk, fun e ↦ hfresh (e ▸ (h.told k f' hk).2.1)⟩
  refine ⟨fun k f' hk ↦ ?_, fun k k' f₁ f₂ hk hk' he ↦ ?_, fun e he ↦ ?_, fun id hid ↦ ?_⟩
  · rcases hcases k f' hk with ⟨rfl, rfl⟩ | ⟨-, hk, hne⟩
    · refine ⟨hkey, by simp, ?_⟩
      rw [eventsOf_append_own hout, hsilent]
      exact hg
    · obtain ⟨hown, hcreated, htold⟩ := h.told k f' hk
      refine ⟨hown, List.mem_append_left _ hcreated, ?_⟩
      rwa [eventsOf_append_other hout hne]
  · rcases hcases k f₁ hk with ⟨rfl, rfl⟩ | ⟨hne, hk, hid₁⟩
    · rcases hcases k' f₂ hk' with ⟨rfl, rfl⟩ | ⟨-, -, hid₂⟩
      · rfl
      · exact absurd he.symm hid₂
    · rcases hcases k' f₂ hk' with ⟨rfl, rfl⟩ | ⟨-, hk', -⟩
      · exact absurd he hid₁
      · exact h.distinct k k' f₁ f₂ hk hk' he
  · rcases List.mem_append.mp he with he | he
    · exact List.mem_append_left _ (h.known e he)
    · rw [hout e he]
      simp
  · have hne : id ≠ g.id := fun e ↦ hid key g (AList.lookup_insert _) e.symm
    rw [eventsOf_append_other hout hne]
    refine h.ended id fun k f' hk ↦ hid k f' ?_
    rwa [AList.lookup_insert_ne]
    rintro rfl
    rw [hvacant] at hk
    cases hk

/-! ### What the shard does -/

variable {accepts : FlowOutput → Bool} {s : Shard}

theorem closeFlow (h : Books s.flows log created) (haccepts : ∀ e, accepts e = true)
    (key : FlowKey) :
    Books (s.closeFlow accepts key).1.flows (log ++ (s.closeFlow accepts key).2.2) created := by
  rcases s.closeFlow_cases accepts key with ⟨-, heq⟩ | ⟨flow, hflow, heq⟩
  · rw [heq, List.append_nil]
    exact h
  · rw [heq]
    obtain ⟨hown, hended⟩ := (h.told key flow hflow).2.2.finish haccepts
    exact h.close hflow hown hended

/-- The packet's flow is back in the table with its events; it may be closed at once. -/
theorem handlePacket {flow : FlowState} {p : ParsedPacket} {cfg : FlowConfig} {clock : Clock}
    (h : Books (s.flows.insert p.key (flow.handle accepts cfg clock p).flow)
      (log ++ (flow.handle accepts cfg clock p).out) created)
    (haccepts : ∀ e, accepts e = true) (isNewFlow : Bool) :
    Books (s.handlePacket cfg accepts clock p flow isNewFlow).1.flows
      (log ++ (s.handlePacket cfg accepts clock p flow isNewFlow).2.2) created := by
  unfold Shard.handlePacket
  dsimp only
  split_ifs
  · obtain ⟨hflows, -, -⟩ := Shard.entomb_tables
      { s with flows := s.flows.insert p.key (flow.handle accepts cfg clock p).flow } p.key
      clock.closed
    rw [← List.append_assoc]
    refine closeFlow ?_ haccepts p.key
    rw [hflows]
    exact h
  · exact h
  · exact h

theorem fire (h : Books s.flows log created) (haccepts : ∀ e, accepts e = true) (cfg : FlowConfig)
    (now : ℕ) (item : TimerItem) : Books (s.fire cfg accepts now item).1.flows
      (log ++ (s.fire cfg accepts now item).2.2) created := by
  have hstay : Books s.flows (log ++ []) created := by
    rw [List.append_nil]
    exact h
  unfold Shard.fire
  cases s.flows.lookup item.key with
  | none => exact hstay
  | some flow =>
      dsimp only
      split_ifs
      · exact h.closeFlow haccepts item.key
      · exact hstay
      · exact hstay

end Books

theorem FlowState.told_new (p : ParsedPacket) (id : Uuid) (now : ℕ) :
    (FlowState.new p id now).Told [] := by
  have hhalf : ∀ d, (FlowState.new p id now).half d = {} := by
    intro d
    cases d <;> rfl
  refine ⟨by simp, by simp [FlowState.new], fun _ ↦ rfl, fun d ↦ ?_, fun _ d ↦ ?_, fun d ↦ ?_⟩
  · exact Nat.zero_le _
  · exact .inl (hhalf d)
  · rw [hhalf d]
    exact Nat.zero_le _

/-! ## Runs of a shard -/

/-- The identifier of the flow that a step creates. -/
def Worker.created (cfg : FlowConfig) (m : Move) (w : Worker) : Option Uuid :=
  match w.stage, m.event with
  | .reserved p _, .proceed flowId =>
      if w.shard.countOf (.fromPacket p) < cfg.maxFlowsPerSourcePrefix then some flowId else none
  | _, _ => none

/-- A shard, the events that it has sent and the identifiers that its flows have got. -/
structure Outputs where
  worker : Worker := {}
  log : List FlowOutput := []
  created : List Uuid := []

namespace Outputs

variable {cfg : FlowConfig} {t : Outputs}

/-- A step, with the counter of active flows as the other shards have left it. -/
def step (cfg : FlowConfig) (t : Outputs) (e : ℕ × Move) : Outputs where
  worker := (t.worker.step cfg e.1 e.2).worker
  log := t.log ++ (t.worker.step cfg e.1 e.2).out
  created := t.created ++ (t.worker.created cfg e.2).toList

def after (cfg : FlowConfig) (moves : List (ℕ × Move)) : Outputs := runFrom (step cfg) {} moves

/-- The L7 worker takes every event, and a flow that is created gets a new identifier. -/
structure Served (cfg : FlowConfig) (t : Outputs) (e : ℕ × Move) : Prop where
  accepts : ∀ event, e.2.accepts event = true
  fresh : ∀ id ∈ t.worker.created cfg e.2, id ∉ t.created

theorem Served.of_none {e : ℕ × Move} (haccepts : ∀ event, e.2.accepts event = true)
    (hnone : t.worker.created cfg e.2 = none) : Served cfg t e :=
  ⟨haccepts, fun id hid ↦ by simp [hnone] at hid⟩

theorem Served.of_first {e : ℕ × Move} (haccepts : ∀ event, e.2.accepts event = true)
    (hfirst : t.created = []) : Served cfg t e :=
  ⟨haccepts, fun id _ ↦ by simp [hfirst]⟩

structure Sound (t : Outputs) : Prop where
  worker : t.worker.Sound
  books : Books t.worker.shard.flows t.log t.created

theorem sound_start : Sound {} := by
  refine ⟨⟨fun _ ↦ rfl, by simp, by simp⟩, ⟨?_, ?_, by simp, fun _ _ ↦ .silent⟩⟩
  · intro key f hf
    simp at hf
  · intro key key' f f' hf
    simp at hf

section Step

variable {m : Move} {active : ℕ}

theorem Sound.receive (h : t.Sound) (haccepts : ∀ event, m.accepts event = true)
    (p : ParsedPacket) (clock : Clock) :
    Books (t.worker.receive m p clock).worker.shard.flows
      (t.log ++ (t.worker.receive m p clock).out) t.created := by
  have hstay : Books t.worker.shard.flows (t.log ++ []) t.created := by
    rw [List.append_nil]
    exact h.books
  unfold Worker.receive
  dsimp only
  cases p.key.protocol with
  | udp => exact hstay
  | tcp =>
      dsimp only
      split_ifs
      · exact Books.closeFlow (s := { t.worker.shard with
          tombstones := t.worker.shard.tombstones.remove p.key }) h.books haccepts p.key
      all_goals exact hstay

theorem Sound.look (h : t.Sound) (haccepts : ∀ event, m.accepts event = true)
    (p : ParsedPacket) (clock : Clock) :
    Books (t.worker.look cfg active m p clock).worker.shard.flows
      (t.log ++ (t.worker.look cfg active m p clock).out) t.created := by
  have hstay : Books t.worker.shard.flows (t.log ++ []) t.created := by
    rw [List.append_nil]
    exact h.books
  unfold Worker.look
  cases hflow : t.worker.shard.flows.lookup p.key with
  | none =>
      dsimp only
      split_ifs <;> exact hstay
  | some flow =>
      obtain ⟨hkey, -, htold⟩ := h.books.told p.key flow hflow
      obtain ⟨hown, htold'⟩ := htold.handle haccepts cfg clock p hkey
      have halike := flow.alike_handle m.accepts cfg clock p
      obtain ⟨hid, hkey', -, -⟩ := flow.countPacket_eq p clock.activity
      exact (h.books.update hflow (halike.id.trans hid) (halike.key.trans hkey') hown
        htold').handlePacket haccepts false

theorem Sound.openFlow (h : t.Sound) (haccepts : ∀ event, m.accepts event = true)
    {p : ParsedPacket} {clock : Clock} {flowId : Uuid}
    (hstage : t.worker.stage = .reserved p clock) (hevent : m.event = .proceed flowId)
    (hfresh : ∀ id ∈ t.worker.created cfg m, id ∉ t.created) :
    Books (t.worker.openFlow cfg m p clock flowId).worker.shard.flows
      (t.log ++ (t.worker.openFlow cfg m p clock flowId).out)
      (t.created ++ (t.worker.created cfg m).toList) := by
  unfold Worker.openFlow
  dsimp only
  by_cases hfull : cfg.maxFlowsPerSourcePrefix ≤ t.worker.shard.countOf (.fromPacket p)
  · have hnone : t.worker.created cfg m = none := by
      simp [Worker.created, hstage, hevent, hfull]
    rw [Shard.countOf] at hfull
    rw [if_pos hfull, hnone, Option.toList_none, List.append_nil, List.append_nil]
    exact h.books
  · have hsome : t.worker.created cfg m = some flowId := by
      simp [Worker.created, hstage, hevent, not_le.mp hfull]
    have hvacant := h.worker.vacant p clock hstage
    obtain ⟨hown, htold⟩ := (FlowState.told_new p flowId clock.created).handle haccepts cfg clock p
      rfl
    have halike := (FlowState.new p flowId clock.created).alike_handle m.accepts cfg clock p
    obtain ⟨hid, hkey, -, -⟩ :=
      (FlowState.new p flowId clock.created).countPacket_eq p clock.activity
    have hid' := halike.id.trans hid
    have hentered := h.books.enter hvacant (hid' ▸ hfresh flowId hsome) (halike.key.trans hkey)
      (fun e he ↦ (hown e he).trans hid'.symm) htold
    rw [hid'] at hentered
    rw [Shard.countOf] at hfull
    rw [if_neg hfull, hsome]
    exact hentered.handlePacket (s := { t.worker.shard with
      sourceCounts := t.worker.shard.sourceCounts.insert (.fromPacket p)
        ((t.worker.shard.sourceCounts.lookup (.fromPacket p)).getD 0 + 1) }) haccepts true

theorem Sound.expire (h : t.Sound) (haccepts : ∀ event, m.accepts event = true) (now : ℕ) :
    Books (t.worker.expire cfg m now).worker.shard.flows
      (t.log ++ (t.worker.expire cfg m now).out) t.created := by
  unfold Worker.expire
  cases t.worker.shard.timers.peek.filter fun item ↦ decide (item.deadline ≤ now) with
  | some item =>
      exact Books.fire (s := { t.worker.shard with timers := t.worker.shard.timers.pop }) h.books
        haccepts cfg now item
  | none =>
      dsimp only
      rw [(t.worker.shard.compact_tables cfg).1, List.append_nil]
      exact h.books

/-- Only an admission gives an identifier. -/
theorem created_of_ne {w : Worker}
    (hstage : ∀ p clock, w.stage = .reserved p clock → ∀ id, m.event ≠ .proceed id) :
    w.created cfg m = none := by
  unfold Worker.created
  split
  case h_1 p clock id hs he => exact absurd he (hstage p clock hs id)
  case h_2 => rfl

theorem Sound.books_step (h : t.Sound) (haccepts : ∀ event, m.accepts event = true)
    (hfresh : ∀ id ∈ t.worker.created cfg m, id ∉ t.created) :
    Books (t.worker.step cfg active m).worker.shard.flows
      (t.log ++ (t.worker.step cfg active m).out)
      (t.created ++ (t.worker.created cfg m).toList) := by
  have hother : ∀ {r : Stepped}, (∀ p clock, t.worker.stage = .reserved p clock →
      ∀ id, m.event ≠ .proceed id) → Books r.worker.shard.flows (t.log ++ r.out) t.created →
      Books r.worker.shard.flows (t.log ++ r.out)
        (t.created ++ (t.worker.created cfg m).toList) := by
    intro r hne hr
    rw [created_of_ne hne, Option.toList_none, List.append_nil]
    exact hr
  have hstay : Books t.worker.shard.flows (t.log ++ []) t.created := by
    rw [List.append_nil]
    exact h.books
  unfold Worker.step
  split
  case h_1 hs _ => exact hother (by simp [hs]) (h.receive haccepts _ _)
  case h_2 hs _ => exact hother (by simp [hs]) hstay
  case h_3 hs _ => exact hother (by simp [hs]) hstay
  case h_4 hs _ => exact hother (by simp [hs]) (h.look haccepts _ _)
  case h_5 hs he => exact h.openFlow haccepts hs he hfresh
  case h_6 hs _ => exact hother (by simp [hs]) (h.expire haccepts _)
  case h_7 key hs _ => exact hother (by simp [hs]) (h.books.closeFlow haccepts key)
  case h_8 hne _ _ => exact hother (fun p clock hs id he ↦ hne p clock id hs he) hstay

end Step

theorem Sound.step (h : t.Sound) (e : ℕ × Move) (hserved : Served cfg t e) :
    (t.step cfg e).Sound :=
  ⟨(Worker.step_sound h.worker).worker, h.books_step hserved.accepts hserved.fresh⟩

theorem sound_after {moves : List (ℕ × Move)} (h : Along (step cfg) (Served cfg) {} moves) :
    (after cfg moves).Sound :=
  invariant_runFrom (fun _ e hs hserved ↦ hs.step e hserved) sound_start h

/-- The flow with the identifier is in the table. -/
def Live (t : Outputs) (id : Uuid) : Prop :=
  ∃ key f, t.worker.shard.flows.lookup key = some f ∧ f.id = id

/-- What the events of an identifier look like. -/
structure Orderly (t : Outputs) (id : Uuid) : Prop where
  running : t.Live id → (∀ e ∈ eventsOf id t.log, e.isClosed = false) ∧
    (eventsOf id t.log = [] ∨ ∃ e ∈ eventsOf id t.log, e.isChunk = true)
  ended : ¬ t.Live id → eventsOf id t.log = [] ∨
    ∃ events summary, eventsOf id t.log = events ++ [.closed summary] ∧
      (∀ e ∈ events, e.isClosed = false) ∧ ∃ e ∈ events, e.isChunk = true
  stopped : t.worker.stage = .stopped → ¬ t.Live id
  chunks : ∀ d, ∀ c ∈ chunksOf d (eventsOf id t.log), c.1 ≤ u64Max ∧ c.2 ≠ []
  offsets : ∀ d, (chunksOf d (eventsOf id t.log)).Pairwise fun c c' ↦
    c.1 + c.2.length ≤ c'.1 ∨ c'.1 = u64Max

/-- Chunks follow each other, whether or not the flow is still in the table. -/
theorem Sound.laid (h : t.Sound) (id : Uuid) (d : Direction) :
    ∃ o, Laid 0 (chunksOf d (eventsOf id t.log)) o := by
  by_cases hlive : t.Live id
  · obtain ⟨key, f, hf, rfl⟩ := hlive
    exact ⟨_, (h.books.told key f hf).2.2.laid d⟩
  · have hended := h.books.ended id fun key f hf he ↦ hlive ⟨key, f, hf, he⟩
    generalize eventsOf id t.log = events at hended
    cases hended with
    | silent => exact ⟨0, le_rfl⟩
    | closed _ _ hlaid summary =>
        obtain ⟨o, ho⟩ := hlaid d
        refine ⟨o, ?_⟩
        rw [chunksOf_append]
        exact ho.append (le_refl o)

/-- Whatever packets and timeouts the shard handles, however the round of a flow ends it. -/
theorem orderly_after (cfg : FlowConfig) (moves : List (ℕ × Move))
    (h : Along (step cfg) (Served cfg) {} moves) (id : Uuid) : Orderly (after cfg moves) id := by
  have hsound : (after cfg moves).Sound := sound_after h
  generalize after cfg moves = t at hsound
  refine ⟨?_, fun hlive ↦ ?_, ?_, fun d c hc ↦ ?_, fun d ↦ ?_⟩
  · rintro ⟨key, f, hf, rfl⟩
    obtain ⟨-, -, htold⟩ := hsound.books.told key f hf
    refine ⟨htold.running, ?_⟩
    cases hvisible : f.visible with
    | true => exact .inr (htold.content.mp hvisible)
    | false => exact .inl (htold.silent hvisible)
  · have hended := hsound.books.ended id fun key f hf he ↦ hlive ⟨key, f, hf, he⟩
    generalize eventsOf id t.log = events at hended
    cases hended with
    | silent => exact .inl rfl
    | closed hrunning hcontent _ summary => exact .inr ⟨_, summary, rfl, hrunning, hcontent⟩
  · rintro hstopped ⟨key, f, hf, -⟩
    have hsize := Table.size_erase hf
    rw [hsound.worker.drained hstopped] at hsize
    cases hsize
  · obtain ⟨o, ho⟩ := hsound.laid id d
    exact (ho.pairwise.1 c hc).2
  · obtain ⟨o, ho⟩ := hsound.laid id d
    exact ho.pairwise.2

/-! ## The last offset -/

/-- The round of a datagram to the service on port 53. -/
def datagramRound : List (ℕ × Move) :=
  [Event.packet (Shards.datagram 40000) (.at 0), .proceed 1, .proceed 1, .proceed 1].map
    fun event ↦ (0, ⟨event, Shards.dnsServices, fun _ ↦ true⟩)

/-- A flow of datagrams with one byte each. -/
def datagramRun (n : ℕ) : List (ℕ × Move) := (List.replicate n datagramRound).flatten

/-- The state after `n` datagrams. -/
structure Flooded (n : ℕ) (t : Outputs) : Prop where
  stage : t.worker.stage = .waiting
  flow : ∃ f, t.worker.shard.flows.lookup (Shards.datagram 40000).key = some f ∧ f.id = 1 ∧
    f.aToB.streamOffset = min n u64Max ∧ f.aToB.finConsumed = false
  timers : t.worker.shard.timers.peek.filter (fun item ↦ decide (item.deadline ≤ 0)) = none ∧
    t.worker.shard.timers.len ≤ 4096
  chunks : chunksOf .aToB (eventsOf 1 t.log) = (List.range n).map fun i ↦ (min i u64Max, [1])

theorem flooded_one : Flooded 1 (after (Shards.budgetConfig 1) datagramRound) where
  stage := by decide +kernel
  flow := by
    refine ⟨_, rfl, ?_, ?_, ?_⟩ <;> decide +kernel
  timers := by decide +kernel
  chunks := by decide +kernel

/-- One more datagram of a flow that is in the table. -/
theorem datagram_handle {f : FlowState} (hid : f.id = 1) (hopen : f.aToB.finConsumed = false) :
    let sent := f.handle (fun _ ↦ true) (Shards.budgetConfig 1) (.at 0) (Shards.datagram 40000)
    sent.flow.shouldClose false = false ∧
      sent.flow.id = 1 ∧ sent.flow.aToB.streamOffset = satAdd f.aToB.streamOffset 1 ∧
      sent.flow.aToB.finConsumed = false ∧
      chunksOf .aToB (eventsOf 1 sent.out) = [(f.aToB.streamOffset, [1])] := by
  have hcontent : Sending.content (fun _ ↦ true) (Shards.budgetConfig 1) (Shards.datagram 40000)
      ⟨f.countPacket (Shards.datagram 40000) 0, [], false⟩ =
      ⟨{ f.countPacket (Shards.datagram 40000) 0 with
          aToB := { f.aToB with streamOffset := satAdd f.aToB.streamOffset 1 } },
        [.chunk ⟨f.id, 0, .aToB, (Shards.datagram 40000).key, f.aToB.streamOffset, [1],
          f.truncated⟩], true⟩ := rfl
  dsimp only
  unfold FlowState.handle Sending.snapshot
  rw [show (Clock.at 0).activity = 0 from rfl, hcontent]
  split_ifs
  · refine ⟨?_, hid, rfl, hopen, ?_⟩
    · simp [Sending.send, Sending.visibleAt, FlowState.shouldClose, hopen]
    · simp [Sending.send, Sending.visibleAt, eventsOf, chunksOf, FlowOutput.flowId,
        FlowOutput.chunkOf?, hid]
  · refine ⟨?_, hid, rfl, hopen, ?_⟩
    · simp [FlowState.shouldClose, hopen]
    · simp [eventsOf, chunksOf, FlowOutput.flowId, FlowOutput.chunkOf?, hid]

theorem Flooded.round {n : ℕ} {t : Outputs} (h : Flooded n t) :
    Along (step (Shards.budgetConfig 1)) (Served (Shards.budgetConfig 1)) t datagramRound ∧
      Flooded (n + 1) (runFrom (step (Shards.budgetConfig 1)) t datagramRound) := by
  obtain ⟨⟨s, stage⟩, log, created⟩ := t
  obtain ⟨hstage, ⟨f, hf, hid, hoff, hopen⟩, ⟨htimers, hlen⟩, hlog⟩ := h
  dsimp only at hstage hf htimers hlen hlog
  subst hstage
  obtain ⟨hstays, hid', hoff', hopen', hchunks⟩ := datagram_handle hid hopen
  have hreceive : step (Shards.budgetConfig 1) ⟨⟨s, .waiting⟩, log, created⟩
      (0, ⟨.packet (Shards.datagram 40000) (.at 0), Shards.dnsServices, fun _ ↦ true⟩) =
      ⟨⟨s, .looking (Shards.datagram 40000) (.at 0)⟩, log, created⟩ := by
    simp [step, Worker.step, Worker.receive, Worker.created, Shards.datagram]
  have hlook : step (Shards.budgetConfig 1)
      ⟨⟨s, .looking (Shards.datagram 40000) (.at 0)⟩, log, created⟩
      (0, ⟨.proceed 1, Shards.dnsServices, fun _ ↦ true⟩) =
      ⟨⟨{ s with flows := s.flows.insert (Shards.datagram 40000).key (f.handle (fun _ ↦ true)
          (Shards.budgetConfig 1) (.at 0) (Shards.datagram 40000)).flow }, .expiring 0⟩,
        log ++ (f.handle (fun _ ↦ true) (Shards.budgetConfig 1) (.at 0)
          (Shards.datagram 40000)).out, created⟩ := by
    have hcloses : f.closes (fun _ ↦ true) (Shards.budgetConfig 1) (.at 0) (Shards.datagram 40000) =
        false := hstays
    simp [step, Worker.step, Worker.look, Worker.created, hf, Shard.handlePacket, hcloses]
    rfl
  generalize f.handle (fun _ ↦ true) (Shards.budgetConfig 1) (.at 0) (Shards.datagram 40000) =
    sent at *
  have hexpire : step (Shards.budgetConfig 1) ⟨⟨{ s with
        flows := s.flows.insert (Shards.datagram 40000).key sent.flow }, .expiring 0⟩,
        log ++ sent.out, created⟩ (0, ⟨.proceed 1, Shards.dnsServices, fun _ ↦ true⟩) =
      ⟨⟨{ s with flows := s.flows.insert (Shards.datagram 40000).key sent.flow }, .waiting⟩,
        log ++ sent.out, created⟩ := by
    have hfew : ¬ 4096 < s.timers.len := not_lt.mpr hlen
    simp only [step, Worker.step, Worker.expire, Worker.created, htimers, Shard.compact, hfew,
      false_and, if_false, Option.toList_none, List.append_nil]
  have hrest : step (Shards.budgetConfig 1)
      ⟨⟨{ s with flows := s.flows.insert (Shards.datagram 40000).key sent.flow }, .waiting⟩,
        log ++ sent.out, created⟩ (0, ⟨.proceed 1, Shards.dnsServices, fun _ ↦ true⟩) =
      ⟨⟨{ s with flows := s.flows.insert (Shards.datagram 40000).key sent.flow }, .waiting⟩,
        log ++ sent.out, created⟩ := by
    simp [step, Worker.step, Worker.created]
  constructor
  · simp only [datagramRound, List.map_cons, List.map_nil, Along, hreceive, hlook, hexpire]
    exact ⟨.of_none (fun _ ↦ rfl) rfl, .of_none (fun _ ↦ rfl) rfl, .of_none (fun _ ↦ rfl) rfl,
      .of_none (fun _ ↦ rfl) rfl, trivial⟩
  · simp only [datagramRound, List.map_cons, List.map_nil, runFrom_cons, runFrom_nil, hreceive,
      hlook, hexpire, hrest]
    refine ⟨rfl, ⟨sent.flow, AList.lookup_insert _, hid', ?_, hopen'⟩, ⟨htimers, hlen⟩, ?_⟩
    · rw [hoff', hoff, satAdd]
      omega
    · dsimp only
      rw [eventsOf, List.filter_append, ← eventsOf, ← eventsOf, chunksOf_append, hlog, hchunks,
        hoff, List.range_succ, List.map_append, List.map_singleton]

theorem datagramRun_succ (n : ℕ) :
    datagramRun (n + 1) = datagramRun n ++ datagramRound := by
  rw [datagramRun, List.replicate_succ', List.flatten_append, List.flatten_singleton, datagramRun]

theorem flooded_datagramRun (n : ℕ) :
    Along (step (Shards.budgetConfig 1)) (Served (Shards.budgetConfig 1)) {}
        (datagramRun (n + 1)) ∧
      Flooded (n + 1) (after (Shards.budgetConfig 1) (datagramRun (n + 1))) := by
  induction n with
  | zero =>
      have hone : datagramRun (0 + 1) = datagramRound := by simp [datagramRun]
      rw [hone]
      refine ⟨⟨.of_first (fun _ ↦ rfl) ?_, .of_first (fun _ ↦ rfl) ?_, .of_first (fun _ ↦ rfl) ?_,
        .of_none (fun _ ↦ rfl) ?_, trivial⟩, flooded_one⟩
      all_goals decide +kernel
  | succ n ih =>
      obtain ⟨halong, hflooded⟩ := ih
      rw [datagramRun_succ, after, runFrom_append, along_append]
      exact ⟨⟨halong, hflooded.round.1⟩, hflooded.round.2⟩

/-- Three datagrams of a flow, and the end of the capture. -/
def shutdownRun : List (ℕ × Move) := datagramRun 3 ++
  [Event.disconnected, .drain (Shards.datagram 40000).key].map fun event ↦
    (0, ⟨event, Shards.dnsServices, fun _ ↦ true⟩)

theorem orderly_shutdownRun :
    Along (step (Shards.budgetConfig 1)) (Served (Shards.budgetConfig 1)) {} shutdownRun ∧
      (eventsOf 1 (after (Shards.budgetConfig 1) shutdownRun).log).length = 5 ∧
      Orderly (after (Shards.budgetConfig 1) shutdownRun) 1 := by
  have h : Along (step (Shards.budgetConfig 1)) (Served (Shards.budgetConfig 1)) {}
      shutdownRun := by
    refine along_append.mpr ⟨(flooded_datagramRun 2).1, .of_none (fun _ ↦ rfl) ?_,
      .of_none (fun _ ↦ rfl) ?_, trivial⟩
    all_goals decide +kernel
  exact ⟨h, by decide +kernel, orderly_after _ shutdownRun h 1⟩

/-- After `2 ^ 64 - 1` bytes all chunks have the same offset. -/
theorem Flooded.not_increasing {n : ℕ} {t : Outputs} (h : Flooded n t) (hn : u64Max + 1 < n) :
    ¬ (chunksOf .aToB (eventsOf 1 t.log)).Pairwise fun c c' ↦ c.1 < c'.1 := by
  intro hincreasing
  rw [h.chunks, List.pairwise_map, List.pairwise_iff_getElem] at hincreasing
  have hlast := hincreasing u64Max (u64Max + 1) (by rw [List.length_range]; omega)
    (by rwa [List.length_range]) (Nat.lt_succ_self _)
  rw [List.getElem_range, List.getElem_range, min_self, min_eq_right (Nat.le_succ _)] at hlast
  exact lt_irrefl _ hlast

theorem not_increasing_datagramRun :
    Along (step (Shards.budgetConfig 1)) (Served (Shards.budgetConfig 1)) {}
        (datagramRun (2 ^ 64 + 1)) ∧
      ¬ ∀ id d, (chunksOf d (eventsOf id (after (Shards.budgetConfig 1)
          (datagramRun (2 ^ 64 + 1))).log)).Pairwise fun c c' ↦ c.1 < c'.1 := by
  have hlong : u64Max + 1 < 2 ^ 64 + 1 := by
    unfold u64Max
    norm_num
  obtain ⟨halong, hflooded⟩ := flooded_datagramRun (2 ^ 64)
  exact ⟨halong, fun h ↦ hflooded.not_increasing hlong (h 1 .aToB)⟩

end Outputs

end Bazalt.Flow
