import Bazalt.Capture.AfXdp
import Bazalt.Capture.KernelFilter

/-!
# The capture worker

In every turn of its loop a live capture worker looks whether the services have changed, installs
a filter for their ports if so, and takes a batch of frames.  A frame is copied to the raw writer,
judged by its first headers, decoded, and judged again; what is left goes to the flow engine.

The registry of the services changes at any time, by the steps of its callers, and the fragments
are shared with the other workers.
-/

namespace Bazalt.Services

/-- The next step of the call stores its map. -/
def Stage.storing : Stage → Bool
  | loaded _ _ => true
  | _ => false

end Bazalt.Services

namespace Bazalt.Capture

open Lib Services Clause

/-! ## The loop -/

/-- A backend that captures live traffic; the address is that of the interface, if it is known. -/
inductive LiveSource where
  | pcap (localMac : Option (Vector UInt8 6))
  | afXdp

def LiveSource.mode : LiveSource → CaptureMode
  | pcap _ => .pcapLive
  | afXdp => .afXdp

/-- `topology_ignored_source_mac`. -/
def LiveSource.ignoredSourceMac : LiveSource → Option (Vector UInt8 6)
  | pcap localMac => localMac
  | afXdp => none

structure CaptureConfig where
  source : LiveSource
  earlyPortFilter : Bool := true
  bpfFilter : Option Clause := none
  tunnelDecapsulation : Bool := true
  rawCaptureEnabled : Bool := false

structure CaptureMetrics where
  captureFrames : ℕ := 0
  captureFrameBytes : ℕ := 0
  rawCaptureDrops : ℕ := 0
  packetsFiltered : ℕ := 0
  packetsIgnored : ℕ := 0
  packetParseErrors : ℕ := 0
  captureDrops : ℕ := 0

inductive CaptureStage where
  | top
  | changed (generation : ℕ)
  | loaded (generation : ℕ) (ports : List UInt16)
  | receiving
  | batch (frames : List CapturedFrame)
  | admitted (frame : CapturedFrame) (rest : List CapturedFrame)
  | enqueue (packet : ParsedPacket) (rest : List CapturedFrame)
  /-- With a frame in hand, or without. -/
  | stopped (unfinished : Bool)

/-- `kernel` is the filter that is installed.  Bookkeeping: `fragments` counts the frames that
were kept for reassembly. -/
structure CaptureWorker where
  serviceGeneration : ℕ := 0
  kernel : Option Clause := none
  stage : CaptureStage := .top
  metrics : CaptureMetrics := {}
  raw : List CapturedFrame := []
  observed : List (ℕ × ℕ × IpAddr) := []
  sent : List ParsedPacket := []
  fragments : ℕ := 0

inductive Enqueued where
  | ok
  | timeout
  | disconnected

/-- What the surroundings do in a step: the shutdown flag, whether the library installs the two
filters, the frames that arrive (none if that fails), whether the raw queue has room, the clock,
and the answer of the flow engine. -/
structure CaptureIo where
  shutdown : Bool := false
  requested : Bool := true
  fallback : Bool := true
  received : Option (List CapturedFrame) := none
  rawSent : Bool := true
  now : ℕ := 0
  enqueued : Enqueued := .ok

/-- `ServiceRegistry::ports`. -/
def ports (services : ServiceMap) : List UInt16 :=
  ((List.range 65536).map UInt16.ofNat).filter fun port ↦ services.containsKey port

theorem mem_ports {services : ServiceMap} {port : UInt16} :
    port ∈ ports services ↔ services.containsKey port = true := by
  rw [ports, List.mem_filter, and_iff_right_iff_imp]
  intro _
  exact List.mem_map.mpr ⟨port.toNat, List.mem_range.mpr port.toNat_lt, UInt16.ofNat_toNat⟩

theorem nodup_ports (services : ServiceMap) : (ports services).Nodup := by
  refine List.Nodup.filter _ (List.Nodup.map_on (fun a ha b hb hsame ↦ ?_) List.nodup_range)
  rw [List.mem_range] at ha hb
  have hnat := congrArg UInt16.toNat hsame
  rwa [UInt16.toNat_ofNat_of_lt' ha, UInt16.toNat_ofNat_of_lt' hb] at hnat

theorem ports_eq_singleton {services : ServiceMap} {port : UInt16}
    (h : ∀ p, services.containsKey p = true ↔ p = port) : ports services = [port] := by
  refine List.perm_singleton.mp ((List.perm_ext_iff_of_nodup (nodup_ports services)
    (List.nodup_singleton port)).mpr fun p ↦ ?_)
  rw [mem_ports, h, List.mem_singleton]

/-- `configure_port_filter`: the new filter, or the old one and an error. -/
def LiveSource.configurePortFilter (source : LiveSource) (ports : List UInt16)
    (extra : Option Clause) (io : CaptureIo) (kernel : Option Clause) : Option Clause × Bool :=
  match source with
  | pcap localMac =>
      if io.requested then (some (livePortFilterExpression ports extra localMac), true)
      else if io.fallback then (some liveFailOpenExpression, true)
      else (kernel, false)
  | afXdp => (kernel, true)

namespace CaptureWorker

/-- A frame is counted, copied and judged by its first headers. -/
def takeFrame (cfg : CaptureConfig) (services : ServiceMap) (io : CaptureIo)
    (frame : CapturedFrame) (rest : List CapturedFrame) (w : CaptureWorker) : CaptureWorker :=
  let localEgress := ignoresEthernetFrame cfg.source.ignoredSourceMac frame.data
  let metrics := { w.metrics with
    captureFrames := w.metrics.captureFrames + 1
    captureFrameBytes := w.metrics.captureFrameBytes + frame.wireLen
    rawCaptureDrops := w.metrics.rawCaptureDrops +
      if cfg.rawCaptureEnabled && !io.rawSent then 1 else 0 }
  let raw := if cfg.rawCaptureEnabled && io.rawSent then w.raw ++ [frame] else w.raw
  match frameMayBelongToService frame.data services cfg.tunnelDecapsulation
      (frameDirection cfg.source.mode localEgress) with
  | .ok true => { w with metrics, raw, stage := .admitted frame rest }
  | .ok false =>
      { w with
        metrics := { metrics with packetsFiltered := metrics.packetsFiltered + 1 }
        raw, stage := .batch rest }
  -- an index that is out of bounds ends the thread
  | .error _ => { w with metrics, raw, stage := .stopped true }

/-- What a remote host has sent to a service is observed. -/
def observe (cfg : CaptureConfig) (services : ServiceMap) (frame : CapturedFrame)
    (packet : ParsedPacket) (w : CaptureWorker) : List (ℕ × ℕ × IpAddr) :=
  match packet.sourceEndpoint.ip with
  | .v4 octets =>
      if !ignoresEthernetFrame cfg.source.ignoredSourceMac frame.data &&
          (packetScope services packet).destination then
        w.observed ++ [(packet.tsNs, packet.wireLen, .v4 octets)]
      else w.observed
  | .v6 _ => w.observed

/-- A packet goes on if it is to be shown. -/
def judge (cfg : CaptureConfig) (services : ServiceMap) (frame : CapturedFrame)
    (packet : ParsedPacket) (rest : List CapturedFrame) (w : CaptureWorker) : CaptureWorker :=
  let observed := w.observe cfg services frame packet
  if serviceFlowVisible (packetScope services packet) cfg.source.mode
      (ignoresEthernetFrame cfg.source.ignoredSourceMac frame.data) then
    { w with observed, stage := .enqueue packet rest }
  else
    { w with
      observed, stage := .batch rest
      metrics := { w.metrics with packetsFiltered := w.metrics.packetsFiltered + 1 } }

/-- A frame is decoded. -/
def decodeFrame (cfg : CaptureConfig) (services : ServiceMap) (io : CaptureIo)
    (frame : CapturedFrame) (rest : List CapturedFrame) (cache : SharedFragmentCache)
    (w : CaptureWorker) : SharedFragmentCache × CaptureWorker :=
  let decoder : PacketDecoder :=
    { tunnelDecapsulation := cfg.tunnelDecapsulation, tsNs := frame.tsNs, now := io.now }
  let decoded := decoder.decode frame.wireLen frame.data cache
  (decoded.2, match decoded.1 with
    | .ok (.packet packet) => w.judge cfg services frame packet rest
    | .ok .pendingFragment => { w with fragments := w.fragments + 1, stage := .batch rest }
    | .ok .ignored =>
        { w with
          metrics := { w.metrics with packetsIgnored := w.metrics.packetsIgnored + 1 }
          stage := .batch rest }
    | .error _ =>
        { w with
          metrics := { w.metrics with packetParseErrors := w.metrics.packetParseErrors + 1 }
          stage := .batch rest })

/-- The filter is brought up to date. -/
def configure (cfg : CaptureConfig) (io : CaptureIo) (generation : ℕ) (ports : List UInt16)
    (w : CaptureWorker) : CaptureWorker :=
  if cfg.earlyPortFilter then
    match cfg.source.configurePortFilter ports cfg.bpfFilter io w.kernel with
    | (kernel, true) =>
        { w with kernel, serviceGeneration := generation, stage := .receiving }
    -- an older filter may hide a service
    | (kernel, false) => { w with kernel, stage := .stopped false }
  else { w with serviceGeneration := generation, stage := .receiving }

def step (cfg : CaptureConfig) (r : ServiceRegistry) (io : CaptureIo) (cache : SharedFragmentCache)
    (w : CaptureWorker) : SharedFragmentCache × CaptureWorker :=
  match w.stage with
  | .top =>
      (cache, if io.shutdown then { w with stage := .stopped false }
        else if r.generation = w.serviceGeneration then { w with stage := .receiving }
        else { w with stage := .changed r.generation })
  | .changed generation => (cache, { w with stage := .loaded generation (ports r.byPort) })
  | .loaded generation ports => (cache, w.configure cfg io generation ports)
  | .receiving =>
      (cache, match io.received with
        | some frames => { w with stage := .batch frames }
        | none => { w with stage := .top })
  | .batch [] => (cache, { w with stage := .top })
  | .batch (frame :: rest) => (cache, w.takeFrame cfg r.byPort io frame rest)
  | .admitted frame rest => w.decodeFrame cfg r.byPort io frame rest cache
  | .enqueue packet rest =>
      (cache, match io.enqueued with
        | .ok => { w with sent := w.sent ++ [packet], stage := .batch rest }
        | .timeout =>
            { w with
              metrics := { w.metrics with captureDrops := w.metrics.captureDrops + 1 }
              stage := .batch rest }
        | .disconnected => { w with stage := .stopped true })
  | .stopped _ => (cache, w)

end CaptureWorker

/-! ## The worker beside the others -/

inductive CaptureEvent (ι : Type) where
  /-- A caller of the registry takes its next step. -/
  | call (caller : ι)
  /-- Other workers have put fragments into the cache or taken them out. -/
  | fragments (cache : SharedFragmentCache)
  | work (io : CaptureIo)

structure CaptureSystem (ι : Type) where
  callers : Callers ι
  cache : SharedFragmentCache
  worker : CaptureWorker := {}

namespace CaptureSystem

variable {ι : Type} [DecidableEq ι]

def services (s : CaptureSystem ι) : ServiceMap := s.callers.shared.byPort

def generation (s : CaptureSystem ι) : ℕ := s.callers.shared.generation

def step (cfg : CaptureConfig) (s : CaptureSystem ι) : CaptureEvent ι → CaptureSystem ι
  | .call caller => { s with callers := s.callers.step next caller }
  | .fragments cache => { s with cache }
  | .work io =>
      let r := s.worker.step cfg s.callers.shared io s.cache
      { s with cache := r.1, worker := r.2 }

/-- No caller is between its store and the count of the generation. -/
def Quiet (s : CaptureSystem ι) : Prop := ∀ i call, s.callers.locals i ≠ .stored call

/-- The event stores no change of the services. -/
def Leaves (s : CaptureSystem ι) : CaptureEvent ι → Prop
  | .call caller => (s.callers.locals caller).storing = false
  | _ => True

instance (s : CaptureSystem ι) : ∀ e, Decidable (s.Leaves e)
  | .call caller => inferInstanceAs (Decidable ((s.callers.locals caller).storing = false))
  | .fragments _ => .isTrue trivial
  | .work _ => .isTrue trivial

/-! ## What a step leaves alone -/

end CaptureSystem

/-- The stages between the look at the generation and the new filter. -/
def CaptureStage.configuring : CaptureStage → Bool
  | changed _ | loaded _ _ => true
  | _ => false

namespace CaptureWorker

variable {cfg : CaptureConfig} {services : ServiceMap} {r : ServiceRegistry} {io : CaptureIo}
  {cache : SharedFragmentCache} {w w' : CaptureWorker}

/-- A step that has nothing to do with the filter. -/
structure Carries (w w' : CaptureWorker) : Prop where
  serviceGeneration : w'.serviceGeneration = w.serviceGeneration
  kernel : w'.kernel = w.kernel
  stage : w'.stage.configuring = false

theorem carries_takeFrame (frame : CapturedFrame) (rest : List CapturedFrame) :
    w.Carries (w.takeFrame cfg services io frame rest) := by
  unfold takeFrame
  dsimp only
  split
  · exact ⟨rfl, rfl, rfl⟩
  · exact ⟨rfl, rfl, rfl⟩
  · exact ⟨rfl, rfl, rfl⟩

theorem carries_judge (frame : CapturedFrame) (packet : ParsedPacket)
    (rest : List CapturedFrame) : w.Carries (w.judge cfg services frame packet rest) := by
  unfold judge
  dsimp only
  split_ifs
  · exact ⟨rfl, rfl, rfl⟩
  · exact ⟨rfl, rfl, rfl⟩

theorem carries_decodeFrame (frame : CapturedFrame) (rest : List CapturedFrame) :
    w.Carries (w.decodeFrame cfg services io frame rest cache).2 := by
  unfold decodeFrame
  dsimp only
  split
  · exact carries_judge _ _ _
  · exact ⟨rfl, rfl, rfl⟩
  · exact ⟨rfl, rfl, rfl⟩
  · exact ⟨rfl, rfl, rfl⟩

theorem step_batch {frame : CapturedFrame} {rest : List CapturedFrame}
    (h : w.stage = .batch (frame :: rest)) :
    (w.step cfg r io cache).2 = w.takeFrame cfg r.byPort io frame rest := by
  rw [step, h]

theorem step_admitted {frame : CapturedFrame} {rest : List CapturedFrame}
    (h : w.stage = .admitted frame rest) :
    (w.step cfg r io cache).2 = (w.decodeFrame cfg r.byPort io frame rest cache).2 := by
  rw [step, h]

theorem takeFrame_stage (frame : CapturedFrame) (rest : List CapturedFrame) :
    (w.takeFrame cfg services io frame rest).stage ≠ .receiving := by
  unfold takeFrame
  dsimp only
  split <;> exact nofun

theorem decodeFrame_stage (frame : CapturedFrame) (rest : List CapturedFrame) :
    (w.decodeFrame cfg services io frame rest cache).2.stage ≠ .receiving := by
  unfold decodeFrame judge
  dsimp only
  split
  · split_ifs <;> exact nofun
  · exact nofun
  · exact nofun
  · exact nofun

/-- What a step of the worker does to the filter. -/
theorem step_cases (cfg : CaptureConfig) (r : ServiceRegistry) (io : CaptureIo)
    (cache : SharedFragmentCache) (w : CaptureWorker) :
    w.Carries (w.step cfg r io cache).2 ∧
        ((w.step cfg r io cache).2.stage = .receiving → w.stage = .top ∧
          r.generation = w.serviceGeneration) ∨
      w.stage = .top ∧
        (w.step cfg r io cache).2 = { w with stage := .changed r.generation } ∨
      (∃ generation, w.stage = .changed generation ∧
        (w.step cfg r io cache).2 = { w with stage := .loaded generation (ports r.byPort) }) ∨
      ∃ generation ports, w.stage = .loaded generation ports ∧
        (w.step cfg r io cache).2 = w.configure cfg io generation ports := by
  cases hstage : w.stage with
  | top =>
      rw [step, hstage]
      dsimp only
      split_ifs with hshutdown hsame
      · exact .inl ⟨⟨rfl, rfl, rfl⟩, fun h ↦ by cases h⟩
      · exact .inl ⟨⟨rfl, rfl, rfl⟩, fun _ ↦ ⟨rfl, hsame⟩⟩
      · exact .inr (.inl ⟨rfl, rfl⟩)
  | changed generation =>
      rw [step, hstage]
      exact .inr (.inr (.inl ⟨generation, rfl, rfl⟩))
  | loaded generation ports =>
      rw [step, hstage]
      exact .inr (.inr (.inr ⟨generation, ports, rfl, rfl⟩))
  | receiving =>
      rw [step, hstage]
      dsimp only
      cases io.received with
      | none => exact .inl ⟨⟨rfl, rfl, rfl⟩, fun h ↦ by cases h⟩
      | some frames => exact .inl ⟨⟨rfl, rfl, rfl⟩, fun h ↦ by cases h⟩
  | batch frames =>
      cases frames with
      | nil =>
          rw [step, hstage]
          exact .inl ⟨⟨rfl, rfl, rfl⟩, fun h ↦ by cases h⟩
      | cons frame rest =>
          rw [step_batch hstage]
          exact .inl ⟨carries_takeFrame frame rest, fun h ↦ absurd h (takeFrame_stage frame rest)⟩
  | admitted frame rest =>
      rw [step_admitted hstage]
      exact .inl ⟨carries_decodeFrame frame rest, fun h ↦ absurd h (decodeFrame_stage frame rest)⟩
  | enqueue packet rest =>
      rw [step, hstage]
      dsimp only
      cases io.enqueued with
      | ok => exact .inl ⟨⟨rfl, rfl, rfl⟩, fun h ↦ by cases h⟩
      | timeout => exact .inl ⟨⟨rfl, rfl, rfl⟩, fun h ↦ by cases h⟩
      | disconnected => exact .inl ⟨⟨rfl, rfl, rfl⟩, fun h ↦ by cases h⟩
  | stopped unfinished =>
      rw [step, hstage]
      refine .inl ⟨⟨rfl, rfl, ?_⟩, fun h ↦ ?_⟩
      · rw [hstage]
        rfl
      · rw [hstage] at h
        cases h

end CaptureWorker

/-! ## The filter is up to date -/

/-- A step of a caller: it leaves the registry and the stores under way alone, or it stores a map,
or it counts the generation. -/
theorem callers_step {ι : Type} [DecidableEq ι] (p : Callers ι) (i : ι) :
    ((p.locals i).storing = false ∧ (p.step next i).shared = p.shared ∧
        ∀ j call, (p.step next i).locals j = .stored call ↔ p.locals j = .stored call) ∨
      ((p.locals i).storing = true ∧
        (p.step next i).shared.generation = p.shared.generation ∧
        ∃ call, (p.step next i).locals i = .stored call) ∨
      ((∃ call, p.locals i = .stored call) ∧
        (p.step next i).shared.generation = p.shared.generation + 1) := by
  have hidle : ∀ stage : Stage, (∀ call, stage ≠ .stored call) →
      (∀ call, p.locals i ≠ .stored call) → (p.step next i).locals i = stage →
      ∀ j call, (p.step next i).locals j = .stored call ↔ p.locals j = .stored call := by
    intro stage hnot hbefore hafter j call
    by_cases hj : j = i
    · subst hj
      rw [hafter]
      exact ⟨fun h ↦ absurd h (hnot call), fun h ↦ absurd h (hbefore call)⟩
    · rw [Pool.locals_step_of_ne hj]
  cases hstage : p.locals i with
  | called c =>
      refine .inl ⟨rfl, ?_, ?_⟩
      · rw [Pool.shared_step, hstage]
        cases c with
        | upsert service => rfl
        | delete port =>
            rw [next]
            split_ifs <;> rfl
      · cases c with
        | upsert service =>
            exact hidle (.loaded (.upsert service) p.shared.byPort) (by simp)
              (by simp [hstage]) (by rw [Pool.locals_step_self, hstage, next])
        | delete port =>
            by_cases hkey : p.shared.byPort.containsKey port = true
            · exact hidle (.loaded (.delete port) p.shared.byPort) (by simp)
                (by simp [hstage]) (by rw [Pool.locals_step_self, hstage, next, if_pos hkey])
            · exact hidle (.returned (.delete port) false) (by simp)
                (by simp [hstage]) (by rw [Pool.locals_step_self, hstage, next, if_neg hkey])
  | loaded c current =>
      refine .inr (.inl ⟨rfl, ?_, c, ?_⟩)
      · rw [Pool.shared_step, hstage]
        rfl
      · rw [Pool.locals_step_self, hstage]
        rfl
  | stored c =>
      refine .inr (.inr ⟨⟨c, rfl⟩, ?_⟩)
      rw [Pool.shared_step, hstage]
      rfl
  | returned c answer =>
      refine .inl ⟨rfl, ?_, ?_⟩
      · rw [Pool.shared_step, hstage]
        rfl
      · exact hidle (.returned c answer) (by simp) (by simp [hstage])
          (by rw [Pool.locals_step_self, hstage, next])

namespace CaptureSystem

variable {ι : Type} [DecidableEq ι] {cfg : CaptureConfig} {s : CaptureSystem ι}

/-- The filter for these services, or the one that stands in for it. -/
def Filters (cfg : CaptureConfig) (services : ServiceMap) (kernel : Option Clause) : Prop :=
  ∀ localMac, cfg.source = .pcap localMac → cfg.earlyPortFilter = true →
    kernel = some (livePortFilterExpression (ports services) cfg.bpfFilter localMac) ∨
      kernel = some liveFailOpenExpression

/-- The worker has seen no later generation than there is.  Where it has seen the last one, and no
change is under way, its filter is that of the services. -/
structure UpToDate (cfg : CaptureConfig) (s : CaptureSystem ι) : Prop where
  seen : s.worker.serviceGeneration ≤ s.generation
  polled : ∀ generation, s.worker.stage = .changed generation → generation ≤ s.generation
  loaded : ∀ generation ports, s.worker.stage = .loaded generation ports →
    generation ≤ s.generation ∧ (generation = s.generation → s.Quiet →
      ports = Capture.ports s.services)
  kernel : s.worker.serviceGeneration = s.generation → s.Quiet →
    Filters cfg s.services s.worker.kernel
  unfiltered : cfg.earlyPortFilter = false → s.worker.kernel = none

theorem filters_configure {io : CaptureIo} {generation : ℕ} {w : CaptureWorker}
    {services : ServiceMap} {localMac : Option (Vector UInt8 6)}
    (hsource : cfg.source = .pcap localMac) (hearly : cfg.earlyPortFilter = true)
    (hreceiving : (w.configure cfg io generation (ports services)).stage = .receiving) :
    Filters cfg services (w.configure cfg io generation (ports services)).kernel := by
  intro mac hmac _
  obtain rfl : localMac = mac := LiveSource.pcap.inj (hsource.symm.trans hmac)
  rw [CaptureWorker.configure, if_pos hearly, hsource, LiveSource.configurePortFilter]
    at hreceiving ⊢
  by_cases hrequested : io.requested = true
  · rw [if_pos hrequested]
    exact .inl rfl
  · by_cases hfallback : io.fallback = true
    · rw [if_neg hrequested, if_pos hfallback]
      exact .inr rfl
    · rw [if_neg hrequested, if_neg hfallback] at hreceiving
      cases hreceiving

variable (cfg) in
theorem configure_stage (io : CaptureIo) (generation : ℕ) (ports : List UInt16)
    (w : CaptureWorker) :
    (w.configure cfg io generation ports).stage = .receiving ∧
        (w.configure cfg io generation ports).serviceGeneration = generation ∨
      (w.configure cfg io generation ports).stage = .stopped false ∧
        (w.configure cfg io generation ports).serviceGeneration = w.serviceGeneration ∧
        (w.configure cfg io generation ports).kernel = w.kernel := by
  unfold CaptureWorker.configure LiveSource.configurePortFilter
  cases cfg.earlyPortFilter with
  | false => exact .inl ⟨rfl, rfl⟩
  | true =>
      cases cfg.source with
      | afXdp => exact .inl ⟨rfl, rfl⟩
      | pcap localMac =>
          cases io.requested with
          | true => exact .inl ⟨rfl, rfl⟩
          | false =>
              cases io.fallback with
              | true => exact .inl ⟨rfl, rfl⟩
              | false => exact .inr ⟨rfl, rfl, rfl⟩

theorem UpToDate.call (h : s.UpToDate cfg) (caller : ι) :
    (s.step cfg (.call caller)).UpToDate cfg := by
  rcases callers_step s.callers caller with ⟨-, hshared, hstored⟩ | ⟨-, hgeneration, call, hstored⟩ |
    ⟨-, hgeneration⟩
  · have hquiet : (s.step cfg (.call caller)).Quiet ↔ s.Quiet :=
      forall_congr' fun j ↦ forall_congr' fun call ↦ not_congr (hstored j call)
    have hsame : (s.step cfg (.call caller)).generation = s.generation :=
      congrArg ServiceRegistry.generation hshared
    have hmap : (s.step cfg (.call caller)).services = s.services :=
      congrArg ServiceRegistry.byPort hshared
    refine ⟨?_, ?_, ?_, ?_, h.unfiltered⟩
    · rw [hsame]
      exact h.seen
    · rw [hsame]
      exact h.polled
    · rw [hsame, hmap, hquiet]
      exact h.loaded
    · rw [hsame, hmap, hquiet]
      exact h.kernel
  · have hbusy : ¬ (s.step cfg (.call caller)).Quiet := fun hquiet ↦ hquiet caller call hstored
    have hsame : (s.step cfg (.call caller)).generation = s.generation := hgeneration
    refine ⟨?_, ?_, fun generation ports hstage ↦ ⟨?_, fun _ hquiet ↦ absurd hquiet hbusy⟩,
      fun _ hquiet ↦ absurd hquiet hbusy, h.unfiltered⟩
    · rw [hsame]
      exact h.seen
    · rw [hsame]
      exact h.polled
    · rw [hsame]
      exact (h.loaded generation ports hstage).1
  · have hsame : (s.step cfg (.call caller)).generation = s.generation + 1 := hgeneration
    refine ⟨?_, fun generation hstage ↦ ?_, fun generation ports hstage ↦ ⟨?_, fun heq ↦ ?_⟩,
      fun heq ↦ ?_, h.unfiltered⟩
    · rw [hsame]
      exact h.seen.trans (Nat.le_succ _)
    · rw [hsame]
      exact (h.polled generation hstage).trans (Nat.le_succ _)
    · rw [hsame]
      exact (h.loaded generation ports hstage).1.trans (Nat.le_succ _)
    · have hle := (h.loaded generation ports hstage).1
      rw [hsame] at heq
      omega
    · have hle := h.seen
      change s.worker.serviceGeneration = _ at heq
      rw [hsame] at heq
      omega

theorem UpToDate.work (h : s.UpToDate cfg) (io : CaptureIo) :
    (s.step cfg (.work io)).UpToDate cfg := by
  have hcallers : (s.step cfg (.work io)).callers = s.callers := rfl
  have hworker : (s.step cfg (.work io)).worker =
      (s.worker.step cfg s.callers.shared io s.cache).2 := rfl
  generalize s.step cfg (.work io) = s' at hcallers hworker ⊢
  have hgeneration : s'.generation = s.generation := by rw [generation, generation, hcallers]
  have hservices : s'.services = s.services := by
    rw [CaptureSystem.services, CaptureSystem.services, hcallers]
  have hquiet : s'.Quiet ↔ s.Quiet := by rw [Quiet, Quiet, hcallers]
  rcases CaptureWorker.step_cases cfg s.callers.shared io s.cache s.worker with
    ⟨hcarries, -⟩ | ⟨-, hnext⟩ | ⟨generation, hstage, hnext⟩ | ⟨generation, ports, hstage, hnext⟩
  · rw [← hworker] at hcarries
    have hnot := hcarries.stage
    refine ⟨?_, fun generation hstage ↦ ?_, fun generation ports hstage ↦ ?_, ?_, ?_⟩
    · rw [hcarries.serviceGeneration, hgeneration]
      exact h.seen
    · rw [hstage] at hnot
      cases hnot
    · rw [hstage] at hnot
      cases hnot
    · rw [hcarries.serviceGeneration, hgeneration, hservices, hquiet, hcarries.kernel]
      exact h.kernel
    · rw [hcarries.kernel]
      exact h.unfiltered
  · rw [hnext] at hworker
    refine ⟨?_, fun generation hstage ↦ ?_, fun generation ports hstage ↦ ?_, ?_, ?_⟩
    · rw [hworker, hgeneration]
      exact h.seen
    · rw [hworker] at hstage
      rw [hgeneration, ← CaptureStage.changed.inj hstage]
      exact le_rfl
    · rw [hworker] at hstage
      cases hstage
    · rw [hworker, hgeneration, hservices, hquiet]
      exact h.kernel
    · rw [hworker]
      exact h.unfiltered
  · rw [hnext] at hworker
    refine ⟨?_, fun g hstage' ↦ ?_, fun g ports hstage' ↦ ?_, ?_, ?_⟩
    · rw [hworker, hgeneration]
      exact h.seen
    · rw [hworker] at hstage'
      cases hstage'
    · rw [hworker] at hstage'
      obtain ⟨rfl, rfl⟩ := CaptureStage.loaded.inj hstage'
      rw [hgeneration, hservices]
      exact ⟨h.polled generation hstage, fun _ _ ↦ rfl⟩
    · rw [hworker, hgeneration, hservices, hquiet]
      exact h.kernel
    · rw [hworker]
      exact h.unfiltered
  · rw [hnext] at hworker
    obtain ⟨hle, hports⟩ := h.loaded generation ports hstage
    have hstages := configure_stage cfg io generation ports s.worker
    rw [← hworker] at hstages
    refine ⟨?_, fun g hstage' ↦ ?_, fun g ports hstage' ↦ ?_, ?_, fun hlate ↦ ?_⟩
    · rw [hgeneration]
      rcases hstages with ⟨-, hseen⟩ | ⟨-, hseen, -⟩
      · rw [hseen]
        exact hle
      · rw [hseen]
        exact h.seen
    · rcases hstages with ⟨heq, -⟩ | ⟨heq, -⟩
      · rw [heq] at hstage'
        cases hstage'
      · rw [heq] at hstage'
        cases hstage'
    · rcases hstages with ⟨heq, -⟩ | ⟨heq, -⟩
      · rw [heq] at hstage'
        cases hstage'
      · rw [heq] at hstage'
        cases hstage'
    · rw [hgeneration, hservices, hquiet]
      rcases hstages with ⟨hreceiving, hseen⟩ | ⟨-, hseen, hkernel⟩
      · intro heq hstill localMac hsource hearly
        rw [hworker] at hreceiving ⊢
        rw [hworker] at hseen heq
        rw [hseen] at heq
        rw [hports heq hstill] at hreceiving ⊢
        exact filters_configure hsource hearly hreceiving localMac hsource hearly
      · rw [hseen, hkernel]
        exact h.kernel
    · rw [hworker, CaptureWorker.configure, if_neg (by simp [hlate])]
      exact h.unfiltered hlate

theorem UpToDate.step (h : s.UpToDate cfg) (e : CaptureEvent ι) : (s.step cfg e).UpToDate cfg := by
  cases e with
  | call caller => exact h.call caller
  | fragments cache => exact ⟨h.seen, h.polled, h.loaded, h.kernel, h.unfiltered⟩
  | work io => exact h.work io

/-- A turn of the loop during which no change is stored. -/
structure Turn (callers : Callers ι) (s : CaptureSystem ι) : Prop where
  quiet : s.Quiet
  shared : s.callers.shared = callers.shared
  polled : ∀ generation, s.worker.stage = .changed generation → generation = s.generation
  loaded : ∀ generation ports, s.worker.stage = .loaded generation ports →
    generation = s.generation
  receiving : s.worker.stage = .receiving → s.worker.serviceGeneration = s.generation

theorem Turn.step {callers : Callers ι} (h : s.Turn callers) {e : CaptureEvent ι}
    (hleaves : s.Leaves e) : (s.step cfg e).Turn callers := by
  cases e with
  | call caller =>
      rcases callers_step s.callers caller with ⟨-, hshared, hstored⟩ | ⟨hstoring, -⟩ |
        ⟨⟨call, hstage⟩, -⟩
      · have hsame : (s.step cfg (.call caller)).generation = s.generation :=
          congrArg ServiceRegistry.generation hshared
        refine ⟨fun i call hi ↦ h.quiet i call ((hstored i call).mp hi), hshared.trans h.shared,
          ?_, ?_, ?_⟩
        · rw [hsame]
          exact h.polled
        · rw [hsame]
          exact h.loaded
        · rw [hsame]
          exact h.receiving
      · change (s.callers.locals caller).storing = false at hleaves
        rw [hstoring] at hleaves
        cases hleaves
      · exact absurd hstage (h.quiet caller call)
  | fragments cache => exact ⟨h.quiet, h.shared, h.polled, h.loaded, h.receiving⟩
  | work io =>
      have hcallers : (s.step cfg (.work io)).callers = s.callers := rfl
      have hworker : (s.step cfg (.work io)).worker =
          (s.worker.step cfg s.callers.shared io s.cache).2 := rfl
      generalize s.step cfg (.work io) = s' at hcallers hworker ⊢
      have hgeneration : s'.generation = s.generation := by rw [generation, generation, hcallers]
      have hquiet : s'.Quiet := by
        rw [Quiet, hcallers]
        exact h.quiet
      have hshared : s'.callers.shared = callers.shared := by rw [hcallers, h.shared]
      rcases CaptureWorker.step_cases cfg s.callers.shared io s.cache s.worker with
        ⟨hcarries, htop⟩ | ⟨-, hnext⟩ | ⟨g, hstage, hnext⟩ | ⟨g, ports, hstage, hnext⟩
      · rw [← hworker] at hcarries htop
        have hnot := hcarries.stage
        refine ⟨hquiet, hshared, fun g hstage ↦ ?_, fun g ports hstage ↦ ?_, fun hstage ↦ ?_⟩
        · rw [hstage] at hnot
          cases hnot
        · rw [hstage] at hnot
          cases hnot
        · rw [hcarries.serviceGeneration, hgeneration]
          exact (htop hstage).2.symm
      · rw [hnext] at hworker
        refine ⟨hquiet, hshared, fun g hstage ↦ ?_, fun g ports hstage ↦ ?_, fun hstage ↦ ?_⟩
        · rw [hworker] at hstage
          rw [hgeneration, ← CaptureStage.changed.inj hstage]
          rfl
        · rw [hworker] at hstage
          cases hstage
        · rw [hworker] at hstage
          cases hstage
      · rw [hnext] at hworker
        refine ⟨hquiet, hshared, fun g' hstage' ↦ ?_, fun g' ports hstage' ↦ ?_, fun hstage' ↦ ?_⟩
        · rw [hworker] at hstage'
          cases hstage'
        · rw [hworker] at hstage'
          rw [hgeneration, ← (CaptureStage.loaded.inj hstage').1]
          exact h.polled g hstage
        · rw [hworker] at hstage'
          cases hstage'
      · rw [hnext] at hworker
        have hstages := configure_stage cfg io g ports s.worker
        rw [← hworker] at hstages
        rcases hstages with ⟨heq, hseen⟩ | ⟨heq, -⟩
        · refine ⟨hquiet, hshared, fun g' hstage' ↦ ?_, fun g' ports hstage' ↦ ?_, fun _ ↦ ?_⟩
          · rw [heq] at hstage'
            cases hstage'
          · rw [heq] at hstage'
            cases hstage'
          · rw [hseen, hgeneration]
            exact h.loaded g ports hstage
        · refine ⟨hquiet, hshared, fun g' hstage' ↦ ?_, fun g' ports hstage' ↦ ?_,
            fun hstage' ↦ ?_⟩
          · rw [heq] at hstage'
            cases hstage'
          · rw [heq] at hstage'
            cases hstage'
          · rw [heq] at hstage'
            cases hstage'

end CaptureSystem

/-! ## The property -/

/-- What is asked of the library that compiles a text: where every load is within the frame and the
clauses say yes, the frame is handed over. -/
def Honors (library : String → Bytes → Bool) (c : Clause) : Prop :=
  ∀ frame, c.answer frame = some true → library c.text frame = true

/-- The kernel hands a frame over if there is no filter or the filter takes it. -/
def CaptureWorker.handsOver (library : String → Bytes → Bool) (w : CaptureWorker) (frame : Bytes) :
    Bool :=
  w.kernel.all fun c ↦ library c.text frame

namespace CaptureSystem

variable {ι : Type} [DecidableEq ι]

/-- The system when the capture starts. -/
def start (callers : Callers ι) (cache : SharedFragmentCache) : CaptureSystem ι :=
  { callers := callers, cache := cache }

/-- Whatever has gone before, once the worker has begun a turn while no change was under way, and
none is stored until it receives, the kernel withholds no frame that would be shown: there is no
blind spot for a service, not even for one whose filter was rejected. -/
theorem nothing_withheld (cfg : CaptureConfig) (localMac : Option (Vector UInt8 6))
    (hsource : cfg.source = .pcap localMac) (library : String → Bytes → Bool)
    (hlibrary : ∀ ports, Honors library (livePortFilterExpression ports cfg.bpfFilter localMac))
    (hfallback : Honors library liveFailOpenExpression) (callers : Callers ι)
    (hcallers : 0 < callers.shared.generation) (cache : SharedFragmentCache)
    (before turn : List (CaptureEvent ι)) :
    let s := runFrom (step cfg) (start callers cache) before
    let s' := runFrom (step cfg) s turn
    s.worker.stage = .top → s.Quiet → Along (step cfg) Leaves s turn →
    s'.worker.stage = .receiving → s'.services.isEmpty = false →
    ∀ (frame : Bytes) (d : PacketDecoder) (wireLen : ℕ),
      (∀ c ∈ cfg.bpfFilter, c.answer frame = some true) →
      s'.worker.handsOver library frame = false →
      Hidden s'.services (ignoresEthernetFrame localMac frame)
        (d.decode wireLen frame s'.cache) := by
  intro s s' htop hquiet hturn hreceiving hservices frame d wireLen hextra hwithheld
  have hstart : (start callers cache).UpToDate cfg := by
    refine ⟨Nat.zero_le _, fun g hstage ↦ ?_, fun g ports hstage ↦ ?_, fun heq ↦ ?_,
      fun _ ↦ rfl⟩
    · cases hstage
    · cases hstage
    · exact absurd heq hcallers.ne
  have hdate : s'.UpToDate cfg := by
    have hrun : runFrom (step cfg) (start callers cache) (before ++ turn) = s' :=
      runFrom_append _ _ _ _
    rw [← hrun]
    exact invariant_runFrom_of_step (I := UpToDate cfg) (fun s e h ↦ h.step e) _ hstart
  have hturn' : s'.Turn s.callers := by
    refine invariant_runFrom (I := fun s' ↦ Turn s.callers s') (fun s e h he ↦ h.step he) ?_ hturn
    refine ⟨hquiet, rfl, fun g hstage ↦ ?_, fun g ports hstage ↦ ?_, fun hstage ↦ ?_⟩
    · rw [htop] at hstage
      cases hstage
    · rw [htop] at hstage
      cases hstage
    · rw [htop] at hstage
      cases hstage
  have hfilters := hdate.kernel (hturn'.receiving hreceiving) hturn'.quiet
  by_cases hearly : cfg.earlyPortFilter = true
  · rcases hfilters localMac hsource hearly with hkernel | hkernel
    · rw [CaptureWorker.handsOver, hkernel] at hwithheld
      refine hidden_of_withheld hservices (fun p ↦ mem_ports) hextra fun hyes ↦ ?_
      have htaken := hlibrary _ frame hyes
      simp only [Option.all_some] at hwithheld
      rw [htaken] at hwithheld
      cases hwithheld
    · rw [CaptureWorker.handsOver, hkernel] at hwithheld
      refine hidden_of_failOpen fun hyes ↦ ?_
      have htaken := hfallback frame hyes
      simp only [Option.all_some] at hwithheld
      rw [htaken] at hwithheld
      cases hwithheld
  · rw [CaptureWorker.handsOver, hdate.unfiltered (by simpa using hearly)] at hwithheld
    cases hwithheld

/-- A library that compiles the filter of one port by its clauses, and every other text to a filter
that takes every frame. -/
def compilesPort (port : UInt16) (text : String) (frame : Bytes) : Bool :=
  text != (livePortFilterExpression [port] none none).text ||
    (livePortFilterExpression [port] none none).answer frame == some true

theorem honors_compilesPort (port : UInt16) (ports : List UInt16) :
    Honors (compilesPort port) (livePortFilterExpression ports none none) := by
  intro frame hyes
  by_cases htext : (livePortFilterExpression ports none none).text =
      (livePortFilterExpression [port] none none).text
  · rw [eq_of_text_eq htext] at hyes
    simp [compilesPort, hyes]
  · simp [compilesPort, htext]

theorem honors_failOpen (port : UInt16) : Honors (compilesPort port) liveFailOpenExpression := by
  intro frame _
  have htext : liveFailOpenExpression.text ≠ (livePortFilterExpression [port] none none).text := by
    intro h
    obtain ⟨c, rest, hone, -⟩ := text_livePortFilterExpression port []
    obtain ⟨later, hip, -⟩ := text_anyOf_cons ip (ip6 :: taggedClauses)
    have hlist := congrArg String.toList h
    rw [hone, liveFailOpenExpression, hip] at hlist
    simp [ip, etherProto] at hlist
  simp [compilesPort, htext]

theorem handsOver_compilesPort {w : CaptureWorker} {port : UInt16}
    (hkernel : w.kernel = some (livePortFilterExpression [port] none none)) (frame : Bytes) :
    w.handsOver (compilesPort port) frame =
      ((livePortFilterExpression [port] none none).answer frame == some true) := by
  rw [CaptureWorker.handsOver, hkernel, Option.all_some, compilesPort]
  simp only [bne_self_eq_false, Bool.false_or]

/-- A service is added after the filter for none is installed.  The next turn of the loop brings
its filter, and a segment to another port is withheld. -/
def addedService : List (CaptureEvent (Fin 1)) :=
  [.work {}, .work {}, .work {}, .call 0, .call 0, .call 0, .work {}]

def addingCallers : Callers (Fin 1) :=
  .start ⟨fun _ ↦ none, 1⟩ fun _ ↦ .upsert { port := 8080, name := "svc-8080" }

theorem nothing_withheld_addedService :
    let s' := runFrom (step { source := .pcap none })
      (runFrom (step { source := .pcap none }) (start addingCallers noFragments) addedService)
      [.work {}, .work {}, .work {}]
    s'.worker.serviceGeneration = 2 ∧ s'.services.containsKey 8080 = true ∧
      s'.worker.handsOver (compilesPort 8080) (ipv4Tcp 40000 8080 0) = true ∧
      Hidden s'.services false (frameDecoder.decode 54 (ipv4Tcp 40000 9999 0) s'.cache) := by
  intro s'
  have hservice : s'.services.containsKey 8080 = true := rfl
  have honly : ∀ port, s'.services.containsKey port = true ↔ port = 8080 := fun port ↦ by
    change (ServiceMap.insert (fun _ ↦ none) _ port).isSome = true ↔ port = 8080
    by_cases hport : port = 8080 <;> simp [ServiceMap.insert, hport]
  have hkernel : s'.worker.kernel = some (livePortFilterExpression [8080] none none) := by
    rw [← ports_eq_singleton honly]
    rfl
  have hother : s'.worker.handsOver (compilesPort 8080) (ipv4Tcp 40000 9999 0) = false := by
    rw [handsOver_compilesPort hkernel]
    decide
  refine ⟨rfl, hservice, ?_, ?_⟩
  · rw [handsOver_compilesPort hkernel]
    decide
  · exact nothing_withheld { source := .pcap none } none rfl (compilesPort 8080)
      (honors_compilesPort 8080) (honors_failOpen 8080) addingCallers Nat.one_pos noFragments
      addedService [.work {}, .work {}, .work {}] rfl (fun i call h ↦ by fin_cases i; cases h)
      ⟨trivial, trivial, trivial, trivial⟩ rfl (ServiceMap.isEmpty_eq_false hservice)
      (ipv4Tcp 40000 9999 0) frameDecoder 54 (fun c h ↦ absurd h (Option.not_mem_none c)) hother

end CaptureSystem

/-! ## The books -/

/-- The frames that are counted and not yet judged. -/
def CaptureStage.inHand : CaptureStage → ℕ
  | admitted _ _ | enqueue _ _ | stopped true => 1
  | _ => 0

namespace CaptureWorker

variable {cfg : CaptureConfig} {services : ServiceMap} {r : ServiceRegistry} {io : CaptureIo}
  {cache : SharedFragmentCache} {w : CaptureWorker}

/-- The frames that were judged so far, with the one in hand. -/
def judged (w : CaptureWorker) : ℕ :=
  w.metrics.packetsFiltered + w.metrics.packetsIgnored + w.metrics.packetParseErrors +
    w.metrics.captureDrops + w.sent.length + w.fragments + w.stage.inHand

/-- Every frame is in one account, and in the raw copy if there is one. -/
structure Balanced (cfg : CaptureConfig) (w : CaptureWorker) : Prop where
  frames : w.metrics.captureFrames = w.judged
  raw : w.raw.length + w.metrics.rawCaptureDrops =
    if cfg.rawCaptureEnabled then w.metrics.captureFrames else 0

theorem Balanced.takeFrame (h : w.Balanced cfg) {frame : CapturedFrame} {rest : List CapturedFrame}
    (hstage : w.stage = .batch (frame :: rest)) :
    (w.takeFrame cfg services io frame rest).Balanced cfg := by
  have hframes := h.frames
  have hraw := h.raw
  rw [judged, hstage] at hframes
  have hcopied : (if cfg.rawCaptureEnabled && io.rawSent then w.raw ++ [frame] else w.raw).length +
      (w.metrics.rawCaptureDrops + if cfg.rawCaptureEnabled && !io.rawSent then 1 else 0) =
      if cfg.rawCaptureEnabled then w.metrics.captureFrames + 1 else 0 := by
    cases henabled : cfg.rawCaptureEnabled with
    | false =>
        rw [henabled] at hraw
        simpa using hraw
    | true =>
        rw [henabled, if_pos rfl] at hraw
        cases io.rawSent with
        | false => simp only [Bool.and_false, Bool.not_false, Bool.and_true, if_true]; simp; omega
        | true => simp; omega
  unfold CaptureWorker.takeFrame
  dsimp only
  split
  · refine ⟨?_, hcopied⟩
    simp only [judged, CaptureStage.inHand] at hframes ⊢
    omega
  · refine ⟨?_, hcopied⟩
    simp only [judged, CaptureStage.inHand] at hframes ⊢
    omega
  · refine ⟨?_, hcopied⟩
    simp only [judged, CaptureStage.inHand] at hframes ⊢
    omega

theorem Balanced.decodeFrame (h : w.Balanced cfg) {frame : CapturedFrame}
    {rest : List CapturedFrame} (hstage : w.stage = .admitted frame rest) :
    (w.decodeFrame cfg services io frame rest cache).2.Balanced cfg := by
  have hframes := h.frames
  rw [judged, hstage] at hframes
  unfold CaptureWorker.decodeFrame CaptureWorker.judge
  dsimp only
  split
  · split_ifs
    · refine ⟨?_, h.raw⟩
      simp only [judged, CaptureStage.inHand] at hframes ⊢
      omega
    · refine ⟨?_, h.raw⟩
      simp only [judged, CaptureStage.inHand] at hframes ⊢
      omega
  · refine ⟨?_, h.raw⟩
    simp only [judged, CaptureStage.inHand] at hframes ⊢
    omega
  · refine ⟨?_, h.raw⟩
    simp only [judged, CaptureStage.inHand] at hframes ⊢
    omega
  · refine ⟨?_, h.raw⟩
    simp only [judged, CaptureStage.inHand] at hframes ⊢
    omega

theorem Balanced.configure (h : w.Balanced cfg) {generation : ℕ} {ports : List UInt16}
    (hstage : w.stage = .loaded generation ports) :
    (w.configure cfg io generation ports).Balanced cfg := by
  have hframes := h.frames
  rw [judged, hstage] at hframes
  unfold CaptureWorker.configure
  split_ifs
  · split <;> exact ⟨hframes, h.raw⟩
  · exact ⟨hframes, h.raw⟩

theorem Balanced.step (h : w.Balanced cfg) : (w.step cfg r io cache).2.Balanced cfg := by
  have hframes := h.frames
  cases hstage : w.stage with
  | top =>
      rw [judged, hstage] at hframes
      rw [CaptureWorker.step, hstage]
      dsimp only
      split_ifs <;> exact ⟨hframes, h.raw⟩
  | changed generation =>
      rw [judged, hstage] at hframes
      rw [CaptureWorker.step, hstage]
      exact ⟨hframes, h.raw⟩
  | loaded generation ports =>
      rw [CaptureWorker.step, hstage]
      exact h.configure hstage
  | receiving =>
      rw [judged, hstage] at hframes
      rw [CaptureWorker.step, hstage]
      dsimp only
      split <;> exact ⟨hframes, h.raw⟩
  | batch frames =>
      cases frames with
      | nil =>
          rw [judged, hstage] at hframes
          rw [CaptureWorker.step, hstage]
          exact ⟨hframes, h.raw⟩
      | cons frame rest =>
          rw [step_batch hstage]
          exact h.takeFrame hstage
  | admitted frame rest =>
      rw [step_admitted hstage]
      exact h.decodeFrame hstage
  | enqueue packet rest =>
      rw [judged, hstage] at hframes
      rw [CaptureWorker.step, hstage]
      dsimp only
      cases io.enqueued with
      | ok =>
          refine ⟨?_, h.raw⟩
          simp only [judged, CaptureStage.inHand, List.length_append, List.length_singleton]
            at hframes ⊢
          omega
      | timeout =>
          refine ⟨?_, h.raw⟩
          simp only [judged, CaptureStage.inHand] at hframes ⊢
          omega
      | disconnected => exact ⟨hframes, h.raw⟩
  | stopped unfinished =>
      rw [CaptureWorker.step, hstage]
      exact h

end CaptureWorker

/-! ## The gates -/

/-- A packet is on its way to the flow engine. -/
def CaptureStage.visible : CaptureStage → Bool
  | enqueue _ _ => true
  | _ => false

theorem CaptureStage.ne_enqueue {stage : CaptureStage} (h : stage.visible = false)
    (packet : ParsedPacket) (rest : List CapturedFrame) : stage ≠ .enqueue packet rest := by
  rintro rfl
  cases h

namespace CaptureWorker

variable {cfg : CaptureConfig} {services : ServiceMap} {r : ServiceRegistry} {io : CaptureIo}
  {cache : SharedFragmentCache} {w : CaptureWorker}

/-- What went to the flow engine is in `shown`, and what was observed in `noted`. -/
structure Gated (shown : Set ParsedPacket) (noted : Set (ℕ × ℕ × IpAddr)) (w : CaptureWorker) :
    Prop where
  sent : ∀ packet ∈ w.sent, packet ∈ shown
  enqueue : ∀ packet rest, w.stage = .enqueue packet rest → packet ∈ shown
  observed : ∀ o ∈ w.observed, o ∈ noted

variable {shown : Set ParsedPacket} {noted : Set (ℕ × ℕ × IpAddr)}

theorem Gated.mono {shown' : Set ParsedPacket} {noted' : Set (ℕ × ℕ × IpAddr)}
    (h : w.Gated shown noted) (hshown : shown ⊆ shown') (hnoted : noted ⊆ noted') :
    w.Gated shown' noted' where
  sent packet hp := hshown (h.sent packet hp)
  enqueue packet rest hp := hshown (h.enqueue packet rest hp)
  observed o ho := hnoted (h.observed o ho)

/-- A step that sends nothing, observes nothing and decides nothing. -/
theorem Gated.of_idle {w' : CaptureWorker} (h : w.Gated shown noted) (hsent : w'.sent = w.sent)
    (hobserved : w'.observed = w.observed) (hstage : w'.stage.visible = false) :
    w'.Gated shown noted where
  sent := hsent ▸ h.sent
  enqueue packet rest h := absurd h (CaptureStage.ne_enqueue hstage packet rest)
  observed := hobserved ▸ h.observed

/-- The frame that is judged now decodes to the packet. -/
def Decodes (cfg : CaptureConfig) (cache : SharedFragmentCache) (w : CaptureWorker)
    (frame : CapturedFrame) (packet : ParsedPacket) : Prop :=
  (∃ rest, w.stage = .admitted frame rest) ∧ ∃ now, (({
    tunnelDecapsulation := cfg.tunnelDecapsulation
    tsNs := frame.tsNs
    now := now } : PacketDecoder).decode frame.wireLen frame.data cache).1 = .ok (.packet packet)

/-- The packet of the frame that is judged now is visible in the mode of the worker, as one that
leaves the host or as one that arrives. -/
def Shows (cfg : CaptureConfig) (services : ServiceMap) (cache : SharedFragmentCache)
    (w : CaptureWorker) (packet : ParsedPacket) : Prop :=
  ∃ frame, w.Decodes cfg cache frame packet ∧
    serviceFlowVisible (packetScope services packet) cfg.source.mode
      (ignoresEthernetFrame cfg.source.ignoredSourceMac frame.data) = true

/-- The frame that is judged now was sent by a remote IPv4 host to a service. -/
def Notes (cfg : CaptureConfig) (services : ServiceMap) (cache : SharedFragmentCache)
    (w : CaptureWorker) (o : ℕ × ℕ × IpAddr) : Prop :=
  ∃ frame packet octets, w.Decodes cfg cache frame packet ∧
    ignoresEthernetFrame cfg.source.ignoredSourceMac frame.data = false ∧
    (packetScope services packet).destination = true ∧
    packet.sourceEndpoint.ip = .v4 octets ∧ o = (packet.tsNs, packet.wireLen, .v4 octets)

theorem notes_of_mem_observe {frame : CapturedFrame} {packet : ParsedPacket}
    (hdecodes : w.Decodes cfg cache frame packet) {o : ℕ × ℕ × IpAddr}
    (ho : o ∈ w.observe cfg services frame packet) :
    o ∈ w.observed ∨ w.Notes cfg services cache o := by
  unfold observe at ho
  split at ho
  · next octets hip =>
    split_ifs at ho with hremote
    · rw [List.mem_append, List.mem_singleton] at ho
      rw [Bool.and_eq_true, Bool.not_eq_true'] at hremote
      exact ho.imp_right fun heq ↦ ⟨frame, packet, octets, hdecodes, hremote.1, hremote.2, hip, heq⟩
    · exact .inl ho
  · exact .inl ho

theorem Gated.judge (h : w.Gated shown noted) {frame : CapturedFrame} {packet : ParsedPacket}
    (hdecodes : w.Decodes cfg cache frame packet)
    (hshown : ∀ p, w.Shows cfg services cache p → p ∈ shown)
    (hnoted : ∀ o, w.Notes cfg services cache o → o ∈ noted) (rest : List CapturedFrame) :
    (w.judge cfg services frame packet rest).Gated shown noted := by
  have hobserved : ∀ o ∈ w.observe cfg services frame packet, o ∈ noted := fun o ho ↦
    (notes_of_mem_observe hdecodes ho).elim (h.observed o) (hnoted o)
  unfold CaptureWorker.judge
  dsimp only
  split_ifs with hvisible
  · refine ⟨h.sent, fun packet' rest' hstage ↦ ?_, hobserved⟩
    obtain ⟨rfl, -⟩ := CaptureStage.enqueue.inj hstage
    exact hshown packet ⟨frame, hdecodes, hvisible⟩
  · exact ⟨h.sent, fun _ _ heq ↦ absurd heq (CaptureStage.ne_enqueue rfl _ _), hobserved⟩

theorem Gated.decodeFrame (h : w.Gated shown noted) {frame : CapturedFrame}
    {rest : List CapturedFrame} (hstage : w.stage = .admitted frame rest)
    (hshown : ∀ p, w.Shows cfg services cache p → p ∈ shown)
    (hnoted : ∀ o, w.Notes cfg services cache o → o ∈ noted) :
    (w.decodeFrame cfg services io frame rest cache).2.Gated shown noted := by
  unfold CaptureWorker.decodeFrame
  dsimp only
  split
  · next packet hpacket =>
    exact h.judge ⟨⟨rest, hstage⟩, io.now, hpacket⟩ hshown hnoted rest
  · exact h.of_idle rfl rfl rfl
  · exact h.of_idle rfl rfl rfl
  · exact h.of_idle rfl rfl rfl

theorem Gated.takeFrame (h : w.Gated shown noted) (frame : CapturedFrame)
    (rest : List CapturedFrame) : (w.takeFrame cfg services io frame rest).Gated shown noted := by
  unfold CaptureWorker.takeFrame
  dsimp only
  split
  · exact h.of_idle rfl rfl rfl
  · exact h.of_idle rfl rfl rfl
  · exact h.of_idle rfl rfl rfl

theorem Gated.step (h : w.Gated shown noted)
    (hshown : ∀ p, w.Shows cfg r.byPort cache p → p ∈ shown)
    (hnoted : ∀ o, w.Notes cfg r.byPort cache o → o ∈ noted) :
    (w.step cfg r io cache).2.Gated shown noted := by
  cases hstage : w.stage with
  | top =>
      rw [CaptureWorker.step, hstage]
      dsimp only
      split_ifs <;> exact h.of_idle rfl rfl rfl
  | changed generation =>
      rw [CaptureWorker.step, hstage]
      exact h.of_idle rfl rfl rfl
  | loaded generation ports =>
      rw [CaptureWorker.step, hstage]
      unfold CaptureWorker.configure
      dsimp only
      split_ifs
      · split <;> exact h.of_idle rfl rfl rfl
      · exact h.of_idle rfl rfl rfl
  | receiving =>
      rw [CaptureWorker.step, hstage]
      dsimp only
      split <;> exact h.of_idle rfl rfl rfl
  | batch frames =>
      cases frames with
      | nil =>
          rw [CaptureWorker.step, hstage]
          exact h.of_idle rfl rfl rfl
      | cons frame rest =>
          rw [step_batch hstage]
          exact h.takeFrame frame rest
  | admitted frame rest =>
      rw [step_admitted hstage]
      exact h.decodeFrame hstage hshown hnoted
  | enqueue packet rest =>
      rw [CaptureWorker.step, hstage]
      dsimp only
      cases io.enqueued with
      | ok =>
          refine ⟨fun p hp ↦ ?_, fun _ _ heq ↦ absurd heq (CaptureStage.ne_enqueue rfl _ _),
            h.observed⟩
          rcases List.mem_append.mp hp with hp | hp
          · exact h.sent p hp
          · rw [List.mem_singleton.mp hp]
            exact h.enqueue packet rest hstage
      | timeout => exact h.of_idle rfl rfl rfl
      | disconnected => exact h.of_idle rfl rfl rfl
  | stopped unfinished =>
      rw [CaptureWorker.step, hstage]
      exact h

end CaptureWorker

namespace CaptureSystem

variable {ι : Type} [DecidableEq ι]

/-- The states that a run passes. -/
def moments (cfg : CaptureConfig) (s : CaptureSystem ι) (es : List (CaptureEvent ι)) :
    Set (CaptureSystem ι) :=
  {s' | ∃ before, before <+: es ∧ runFrom (step cfg) s before = s'}

/-- The packets that some moment of a run shows. -/
def shownDuring (cfg : CaptureConfig) (s : CaptureSystem ι) (es : List (CaptureEvent ι)) :
    Set ParsedPacket :=
  {packet | ∃ s' ∈ moments cfg s es, s'.worker.Shows cfg s'.services s'.cache packet}

/-- What some moment of a run notes of remote hosts. -/
def notedDuring (cfg : CaptureConfig) (s : CaptureSystem ι) (es : List (CaptureEvent ι)) :
    Set (ℕ × ℕ × IpAddr) :=
  {o | ∃ s' ∈ moments cfg s es, s'.worker.Notes cfg s'.services s'.cache o}

theorem moments_mono (cfg : CaptureConfig) (s : CaptureSystem ι) (es more : List (CaptureEvent ι)) :
    moments cfg s es ⊆ moments cfg s (es ++ more) := by
  rintro s' ⟨before, hbefore, heq⟩
  exact ⟨before, hbefore.trans (List.prefix_append es more), heq⟩

/-- In every run each frame that was counted is in one account, or in hand, and in the raw copy or
counted as lost from it.  Every packet that went to the flow engine is that of a frame which was
judged at some moment, and was visible by the services of that moment for the mode of the worker
and the direction of the frame; every source that was observed sent such a frame to a service. -/
theorem accounted_after (cfg : CaptureConfig) (callers : Callers ι) (cache : SharedFragmentCache)
    (es : List (CaptureEvent ι)) :
    let w := (runFrom (step cfg) (start callers cache) es).worker
    w.Balanced cfg ∧ w.Gated (shownDuring cfg (start callers cache) es)
      (notedDuring cfg (start callers cache) es) := by
  refine ⟨?_, ?_⟩
  · refine invariant_runFrom_of_step (I := fun s : CaptureSystem ι ↦ s.worker.Balanced cfg)
      (fun s e h ↦ ?_) es ?_
    · cases e with
      | call caller => exact h
      | fragments cache => exact h
      | work io => exact h.step
    · exact ⟨rfl, by cases cfg.rawCaptureEnabled <;> rfl⟩
  · induction es using List.reverseRecOn with
    | nil =>
        exact ⟨fun _ h ↦ absurd h List.not_mem_nil,
          fun _ _ h ↦ absurd h (CaptureStage.ne_enqueue rfl _ _),
          fun _ h ↦ absurd h List.not_mem_nil⟩
    | append_singleton es e ih =>
        have hsub := moments_mono cfg (start callers cache) es [e]
        have hnow : runFrom (step cfg) (start callers cache) es ∈
            moments cfg (start callers cache) (es ++ [e]) := hsub ⟨es, List.prefix_rfl, rfl⟩
        have hshown : shownDuring cfg (start callers cache) es ⊆
            shownDuring cfg (start callers cache) (es ++ [e]) := by
          rintro packet ⟨s', hs', h⟩
          exact ⟨s', hsub hs', h⟩
        have hnoted : notedDuring cfg (start callers cache) es ⊆
            notedDuring cfg (start callers cache) (es ++ [e]) := by
          rintro o ⟨s', hs', h⟩
          exact ⟨s', hsub hs', h⟩
        have hold := ih.mono hshown hnoted
        rw [runFrom_append, runFrom_cons, runFrom_nil]
        cases e with
        | call caller => exact hold
        | fragments cache => exact hold
        | work io => exact hold.step (fun _ h ↦ ⟨_, hnow, h⟩) (fun _ h ↦ ⟨_, hnow, h⟩)

end CaptureSystem

end Bazalt.Capture
