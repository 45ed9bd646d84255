import Bazalt.Lib.Memory
import Bazalt.Lib.Run
import Bazalt.Model

/-!
# Frames that are shared with the kernel

With AF_XDP the kernel writes packets into frames of a memory that it shares with the capture
worker.  A frame is on the fill ring, or with the kernel, or on the receive ring.  The worker
peeks at the receive ring, copies what it finds, and gives the frames back through the fill
ring.  A packet that does not fit in one frame comes in several descriptors, all but the last
one marked as continued.

The kernel is not the program's.  It takes what the fill ring offers, writes only to frames
that it has taken, and posts a descriptor when the receive ring has room.  Nor is the library
that the worker reads and fills the rings with: what is relied on is what it documents.
-/

namespace Bazalt.Capture

open Lib

def pmFrameSize : ℕ := 2048

def pmNumFrames : ℕ := 8192

def pmRxSize : ℕ := 4096

def pmFillSize : ℕ := 8192

def maxBatch : ℕ := 256

def xdpPktContd : ℕ := 1

structure CapturedFrame where
  tsNs : ℕ
  wireLen : ℕ
  data : Bytes
  deriving DecidableEq, Repr

inductive XdpError where
  | invalid
  | busy
  | noSpace
  | wakeup
  deriving DecidableEq, Repr

structure XdpDesc where
  addr : ℕ
  len : ℕ
  options : ℕ
  deriving DecidableEq, Repr

/-- `data` is the place in the buffer that the pointer of the source leads to. -/
structure PmXdpFrame where
  data : ℕ
  len : ℕ
  addr : ℕ
  options : ℕ
  deriving DecidableEq, Repr

/-- The functions of the library.  What a peek shows depends on what the library has seen of the
ring, and a submission puts the addresses that were written to the reserved places on it. -/
structure LibXdp where
  extractAddr (addr : ℕ) : ℕ
  addOffsetToAddr (addr : ℕ) : ℕ
  getData (addr : ℕ) : ℕ
  ringConsPeek (seen : ℕ) (ring : List XdpDesc) (nb : ℕ) : List XdpDesc
  ringConsRelease (ring : List XdpDesc) (nb : ℕ) : List XdpDesc
  ringProdReserve (ring : List ℕ) (nb : ℕ) : ℕ
  ringProdSubmit (ring : List ℕ) (addrs : List ℕ) : List ℕ

/-- The lower 48 bits of an address are the address, the others an offset.  A peek shows entries
from the front of the ring, a reservation succeeds if there is room. -/
structure LibXdp.Documented (lib : LibXdp) : Prop where
  extractAddr : ∀ addr < 2 ^ 48, lib.extractAddr addr = addr
  addOffsetToAddr : ∀ addr < 2 ^ 48, lib.addOffsetToAddr addr = addr
  getData : ∀ addr, lib.getData addr = addr
  ringConsPeek : ∀ seen ring nb, lib.ringConsPeek seen ring nb <+: ring.take nb
  ringConsRelease : ∀ ring nb, nb ≤ ring.length → lib.ringConsRelease ring nb = ring.drop nb
  ringProdReserve : ∀ ring nb, ring.length + nb ≤ pmFillSize → lib.ringProdReserve ring nb = nb
  ringProdSubmit : ∀ ring addrs, ring.length + addrs.length ≤ pmFillSize →
    lib.ringProdSubmit ring addrs = ring ++ addrs

def XdpDesc.frame (lib : LibXdp) (d : XdpDesc) : PmXdpFrame :=
  ⟨lib.getData (lib.addOffsetToAddr d.addr), d.len, lib.extractAddr d.addr, d.options⟩

/-- The frame of an address; the kernel rounds the addresses on the fill ring down. -/
def frameOf (addr : ℕ) : ℕ := addr / pmFrameSize

def isContinued (options : ℕ) : Bool := options &&& xdpPktContd != 0

/-- Where `receive_batch` is: the descriptors of a batch are copied one after the other, then
published, then given back. -/
inductive Phase where
  | idle
  | copying (frames : List PmXdpFrame) (copied : List Bytes)
  | releasing (frames : List PmXdpFrame)
  deriving DecidableEq, Repr

/-- Bookkeeping: what the kernel has posted. -/
structure XdpFragment where
  data : Bytes
  continued : Bool
  deriving DecidableEq, Repr

structure AfXdp where
  memory : Memory UInt8 := fun _ ↦ 0
  fill : List ℕ
  lent : List ℕ := []
  rx : List XdpDesc := []
  peekCount : ℕ := 0
  pendingMultibuf : Bytes := []
  pendingWireLen : ℕ := 0
  phase : Phase := .idle
  out : List CapturedFrame := []
  errors : List XdpError := []
  posted : List XdpFragment := []

/-- One batch: descriptors without bytes are passed over, and the pieces of a packet are put
together.  The result is what is pending and what is complete. -/
def stitch (tsNs : ℕ) : Bytes × ℕ → List (ℕ × Bytes) → (Bytes × ℕ) × List CapturedFrame
  | s, [] => (s, [])
  | s, (options, data) :: rest =>
      if data.length = 0 then stitch tsNs s rest
      else if s.1.isEmpty && !isContinued options then
        let r := stitch tsNs s rest
        (r.1, ⟨tsNs, data.length, data⟩ :: r.2)
      else
        let s' := (s.1 ++ data, satAdd s.2 data.length)
        if isContinued options then stitch tsNs s' rest
        else
          let r := stitch tsNs ([], 0) rest
          (r.1, ⟨tsNs, s'.2, s'.1⟩ :: r.2)

namespace AfXdp

/-- `seed_fill_ring`: all frames are offered to the kernel. -/
def opened (lib : LibXdp) : AfXdp where
  fill := lib.ringProdSubmit [] ((List.range pmNumFrames).map fun i ↦ i * pmFrameSize)

variable (lib : LibXdp) (s : AfXdp)

def pmXdpPeek (seen maxFrames : ℕ) : AfXdp × Except XdpError (List PmXdpFrame) :=
  if maxFrames = 0 then (s, .error .invalid)
  else if s.peekCount ≠ 0 then (s, .error .busy)
  else
    let descs := lib.ringConsPeek seen s.rx maxFrames
    ({ s with peekCount := descs.length }, .ok (descs.map (XdpDesc.frame lib)))

/-- `polled` says how the wakeup ends, if there is one. -/
def pmXdpRelease (frames : List PmXdpFrame) (polled : Bool) : AfXdp × Except XdpError Unit :=
  if frames.length ≠ s.peekCount then (s, .error .invalid)
  else if frames.length = 0 then (s, .ok ())
  else if lib.ringProdReserve s.fill frames.length ≠ frames.length then (s, .error .noSpace)
  else
    ({ s with
        fill := lib.ringProdSubmit s.fill (frames.map PmXdpFrame.addr)
        rx := lib.ringConsRelease s.rx frames.length
        peekCount := 0 },
      if polled then .ok () else .error .wakeup)

inductive Event where
  | take
  | write (addr : ℕ) (data : Bytes)
  | post (desc : XdpDesc)
  | peek (seen : ℕ)
  | copy
  | publish (tsNs : ℕ)
  | release (polled : Bool)

/-- A descriptor of the kernel: the bytes are in a frame that the kernel has. -/
def MayPost (d : XdpDesc) : Prop :=
  frameOf d.addr ∈ s.lent ∧ Memory.InChunk pmFrameSize d.addr d.len ∧ 0 < d.len ∧ s.rx.length < pmRxSize

instance (d : XdpDesc) : Decidable (s.MayPost d) := inferInstanceAs (Decidable (_ ∧ _ ∧ _ ∧ _))

def fragmentAt (m : Memory UInt8) (d : XdpDesc) : XdpFragment :=
  ⟨m.read d.addr d.len, isContinued d.options⟩

/-- The kernel's events change nothing when they are not the kernel's to make, and those of the
worker when it is elsewhere. -/
def step (captureBatch : ℕ) (s : AfXdp) : Event → AfXdp
  | .take =>
      match s.fill with
      | [] => s
      | addr :: fill => { s with fill, lent := frameOf addr :: s.lent }
  | .write addr data =>
      if frameOf addr ∈ s.lent ∧ Memory.InChunk pmFrameSize addr data.length then
        { s with memory := s.memory.write addr data }
      else s
  | .post d =>
      if s.MayPost d then
        { s with
          lent := s.lent.erase (frameOf d.addr)
          rx := s.rx ++ [d]
          posted := s.posted ++ [fragmentAt s.memory d] }
      else s
  | .peek seen =>
      match s.phase with
      | .idle =>
          match s.pmXdpPeek lib seen (min captureBatch maxBatch) with
          | (s, .error e) => { s with errors := s.errors ++ [e] }
          | (s, .ok []) => s
          | (s, .ok frames) => { s with phase := .copying frames [] }
      | _ => s
  | .copy =>
      match s.phase with
      | .copying frames copied =>
          match frames[copied.length]? with
          | some f => { s with phase := .copying frames (copied ++ [s.memory.read f.data f.len]) }
          | none => s
      | _ => s
  | .publish tsNs =>
      match s.phase with
      | .copying frames copied =>
          if frames.length = copied.length then
            let r := stitch tsNs (s.pendingMultibuf, s.pendingWireLen)
              ((frames.map PmXdpFrame.options).zip copied)
            { s with
              pendingMultibuf := r.1.1
              pendingWireLen := r.1.2
              out := s.out ++ r.2
              phase := .releasing frames }
          else s
      | _ => s
  | .release polled =>
      match s.phase with
      | .releasing frames =>
          match s.pmXdpRelease lib frames polled with
          | (s, .ok ()) => { s with phase := .idle }
          | (s, .error e) => { s with phase := .idle, errors := s.errors ++ [e] }
      | _ => s

def after (captureBatch : ℕ) (events : List Event) : AfXdp :=
  runFrom (step lib captureBatch) (opened lib) events

end AfXdp

/-! ## Packets -/

/-- The pieces of a packet: those that are continued, and the last one. -/
structure XdpPacket where
  more : List Bytes
  last : Bytes

namespace XdpPacket

def bytes (p : XdpPacket) : Bytes := p.more.flatten ++ p.last

def fragments (p : XdpPacket) : List XdpFragment := p.more.map (⟨·, true⟩) ++ [⟨p.last, false⟩]

end XdpPacket

/-- The fragments are packets, whose bytes are in `out`, and the beginning of another one, whose
bytes are pending. -/
def Assembled (fragments : List XdpFragment) (pending : Bytes × ℕ) (out : List CapturedFrame) :
    Prop :=
  ∃ packets : List XdpPacket, ∃ begun : List Bytes, (∀ data ∈ begun, data ≠ []) ∧
    fragments = packets.flatMap XdpPacket.fragments ++ begun.map (⟨·, true⟩) ∧
    pending = (begun.flatten, min begun.flatten.length u64Max) ∧
    out.map (fun f ↦ (f.wireLen, f.data)) =
      packets.map fun p ↦ (min p.bytes.length u64Max, p.bytes)

section

variable {fragments : List XdpFragment} {pending : Bytes × ℕ} {out : List CapturedFrame}
  {data : Bytes}

theorem satAdd_min_length (a b : Bytes) :
    satAdd (min a.length u64Max) b.length = min (a ++ b).length u64Max := by
  rw [satAdd, List.length_append]
  omega

theorem Assembled.more (h : Assembled fragments pending out) (hdata : data ≠ []) :
    Assembled (fragments ++ [⟨data, true⟩]) (pending.1 ++ data, satAdd pending.2 data.length)
      out := by
  obtain ⟨packets, begun, hne, rfl, rfl, hout⟩ := h
  refine ⟨packets, begun ++ [data], ?_, ?_, ?_, hout⟩
  · intro piece hpiece
    rcases List.mem_append.mp hpiece with hpiece | hpiece
    · exact hne piece hpiece
    · rwa [List.mem_singleton.mp hpiece]
  · rw [List.map_append, List.append_assoc, List.map_singleton]
  · rw [List.flatten_append, List.flatten_singleton, satAdd_min_length]

variable (data) in
theorem Assembled.last (h : Assembled fragments pending out) (tsNs : ℕ) :
    Assembled (fragments ++ [⟨data, false⟩]) ([], 0)
      (out ++ [⟨tsNs, satAdd pending.2 data.length, pending.1 ++ data⟩]) := by
  obtain ⟨packets, begun, -, rfl, rfl, hout⟩ := h
  refine ⟨packets ++ [⟨begun, data⟩], [], ?_, ?_, rfl, ?_⟩
  · exact fun piece hpiece ↦ absurd hpiece List.not_mem_nil
  · simp [XdpPacket.fragments]
  · rw [List.map_append, hout, List.map_append, List.map_singleton, List.map_singleton,
      satAdd_min_length]
    rfl

/-- A packet that begins and ends here is published as it is. -/
theorem Assembled.whole (h : Assembled fragments pending out) (tsNs : ℕ)
    (hpending : pending.1.isEmpty = true) (hlen : data.length ≤ u64Max) :
    Assembled (fragments ++ [⟨data, false⟩]) pending (out ++ [⟨tsNs, data.length, data⟩]) := by
  have hlast := h.last data tsNs
  obtain ⟨packets, begun, hne, hsplit, rfl, hout⟩ := h
  have hbegun : begun = [] := by
    refine List.eq_nil_iff_forall_not_mem.mpr fun piece hpiece ↦ hne piece hpiece ?_
    exact List.flatten_eq_nil_iff.mp (List.isEmpty_iff.mp hpending) piece hpiece
  subst hbegun
  rwa [satAdd_min_length, List.flatten_nil, List.nil_append, min_eq_left hlen] at hlast

/-- The run over a batch. -/
theorem Assembled.stitch (tsNs : ℕ) (batch : List (ℕ × Bytes)) (h : Assembled fragments pending out)
    (hbatch : ∀ b ∈ batch, b.2 ≠ [] ∧ b.2.length ≤ u64Max) :
    Assembled (fragments ++ batch.map fun b ↦ ⟨b.2, isContinued b.1⟩)
      (Capture.stitch tsNs pending batch).1 (out ++ (Capture.stitch tsNs pending batch).2) := by
  induction batch generalizing fragments pending out with
  | nil => simpa [Capture.stitch] using h
  | cons b batch ih =>
      obtain ⟨options, data⟩ := b
      obtain ⟨hdata, hlen⟩ := hbatch _ List.mem_cons_self
      have hrest : ∀ b ∈ batch, b.2 ≠ [] ∧ b.2.length ≤ u64Max :=
        fun b hb ↦ hbatch b (List.mem_cons_of_mem _ hb)
      have hne : ¬ data.length = 0 := fun hzero ↦ hdata (List.eq_nil_of_length_eq_zero hzero)
      rw [Capture.stitch, if_neg hne, List.map_cons, ← List.singleton_append, ← List.append_assoc]
      dsimp only
      cases hcontinued : isContinued options with
      | true =>
          rw [Bool.not_true, Bool.and_false, if_neg Bool.false_ne_true, if_pos rfl]
          exact ih (h.more hdata) hrest
      | false =>
          rw [Bool.not_false, Bool.and_true, if_neg Bool.false_ne_true]
          split_ifs with hpending
          · have hnext := ih (h.whole tsNs hpending hlen) hrest
            rwa [List.append_assoc out, List.singleton_append] at hnext
          · have hnext := ih (h.last data tsNs) hrest
            rwa [List.append_assoc out, List.singleton_append] at hnext

end

/-! ## Custody -/

namespace AfXdp

variable {lib : LibXdp} {s : AfXdp} {captureBatch : ℕ}

/-- The descriptors that are not published yet. -/
def unpublished (s : AfXdp) : List XdpDesc :=
  match s.phase with
  | .releasing frames => s.rx.drop frames.length
  | _ => s.rx

/-- The batch at hand is the front of the receive ring, and what is copied is still there. -/
def InPhase (lib : LibXdp) (s : AfXdp) : Prop :=
  match s.phase with
  | .idle => s.peekCount = 0
  | .copying frames copied =>
      s.peekCount = frames.length ∧ frames = (s.rx.take frames.length).map (XdpDesc.frame lib) ∧
        copied = (s.rx.take copied.length).map (fun d ↦ s.memory.read d.addr d.len) ∧
          copied.length ≤ frames.length
  | .releasing frames =>
      s.peekCount = frames.length ∧ frames = (s.rx.take frames.length).map (XdpDesc.frame lib)

structure Sound (lib : LibXdp) (captureBatch : ℕ) (s : AfXdp) : Prop where
  custody : (s.fill.map frameOf ++ s.lent ++ s.rx.map fun d ↦ frameOf d.addr).Perm
    (List.range pmNumFrames)
  fits : ∀ d ∈ s.rx, Memory.InChunk pmFrameSize d.addr d.len ∧ 0 < d.len
  room : s.rx.length ≤ pmRxSize
  inPhase : s.InPhase lib
  errors : ∀ e ∈ s.errors, e = .wakeup ∨ e = .invalid ∧ captureBatch = 0
  delivered : ∃ published, s.posted = published ++ s.unpublished.map (fragmentAt s.memory) ∧
    Assembled published (s.pendingMultibuf, s.pendingWireLen) s.out

theorem sound_opened (hlib : lib.Documented) : Sound lib captureBatch (opened lib) where
  custody := by
    have hframe : (List.range pmNumFrames).map (frameOf ∘ fun i ↦ i * pmFrameSize) =
        List.range pmNumFrames := by
      refine (List.map_congr_left fun i _ ↦ ?_).trans (List.map_id _)
      exact Nat.mul_div_cancel i (by decide)
    have hsize : ([] : List ℕ).length + ((List.range pmNumFrames).map fun i ↦
        i * pmFrameSize).length ≤ pmFillSize := by
      rw [List.length_nil, List.length_map, List.length_range]
      decide
    simp only [opened, hlib.ringProdSubmit _ _ hsize, List.nil_append, List.map_map, hframe,
      List.map_nil, List.append_nil]
    exact List.Perm.refl _
  fits _ hd := absurd hd List.not_mem_nil
  room := Nat.zero_le _
  inPhase := rfl
  errors _ he := absurd he List.not_mem_nil
  delivered := ⟨[], rfl, [], [], fun _ h ↦ absurd h List.not_mem_nil, rfl, rfl, rfl⟩

theorem Sound.nodup (h : Sound lib captureBatch s) :
    (s.fill.map frameOf ++ s.lent ++ s.rx.map fun d ↦ frameOf d.addr).Nodup :=
  h.custody.nodup_iff.mpr List.nodup_range

theorem Sound.length_eq (h : Sound lib captureBatch s) :
    s.fill.length + s.lent.length + s.rx.length = pmNumFrames := by
  have hlength := h.custody.length_eq
  simpa [add_assoc] using hlength

/-- The kernel does not have the frames on the receive ring. -/
theorem Sound.frame_ne (h : Sound lib captureBatch s) {d : XdpDesc} (hd : d ∈ s.rx) {frame : ℕ}
    (hframe : frame ∈ s.lent) : frameOf d.addr ≠ frame := by
  rintro rfl
  exact List.disjoint_of_nodup_append h.nodup (List.mem_append_right _ hframe)
    (List.mem_map_of_mem hd)

/-- An address on the receive ring is in the buffer, and has no offset. -/
theorem Sound.addr_eq (h : Sound lib captureBatch s) (hlib : lib.Documented) {d : XdpDesc}
    (hd : d ∈ s.rx) : (d.frame lib).addr = d.addr ∧ (d.frame lib).data = d.addr := by
  have hmem : frameOf d.addr ∈ List.range pmNumFrames :=
    h.custody.mem_iff.mp (List.mem_append_right _ (List.mem_map_of_mem hd))
  have hframe : d.addr / 2048 < 8192 := List.mem_range.mp hmem
  have haddr : d.addr < 2 ^ 48 := by omega
  exact ⟨hlib.extractAddr _ haddr, (hlib.getData _).trans (hlib.addOffsetToAddr _ haddr)⟩

/-! ### The steps of the kernel -/

theorem Sound.take (h : Sound lib captureBatch s) :
    Sound lib captureBatch (s.step lib captureBatch .take) := by
  dsimp only [step]
  cases hfill : s.fill with
  | nil => exact h
  | cons addr fill =>
      have hcustody := h.custody
      rw [hfill] at hcustody
      refine ⟨?_, h.fits, h.room, h.inPhase, h.errors, h.delivered⟩
      refine List.Perm.trans ?_ hcustody
      exact (List.perm_middle (a := frameOf addr)).append_right _

/-- What is on the receive ring stays as it is. -/
theorem Sound.write (h : Sound lib captureBatch s) (addr : ℕ) (data : Bytes) :
    Sound lib captureBatch (s.step lib captureBatch (.write addr data)) := by
  dsimp only [step]
  split_ifs with hmine
  · have hread : ∀ d ∈ s.rx, (s.memory.write addr data).read d.addr d.len =
        s.memory.read d.addr d.len := fun d hd ↦
      Memory.read_write_of_chunk_ne (h.fits d hd).1 hmine.2 (h.frame_ne hd hmine.1)
    refine ⟨h.custody, h.fits, h.room, ?_, h.errors, ?_⟩
    · have hphase := h.inPhase
      unfold InPhase at hphase ⊢
      dsimp only
      cases hcase : s.phase with
      | copying frames copied =>
          rw [hcase] at hphase
          refine ⟨hphase.1, hphase.2.1, hphase.2.2.1.trans ?_, hphase.2.2.2⟩
          exact List.map_congr_left fun d hd ↦ (hread d (List.mem_of_mem_take hd)).symm
      | idle =>
          rw [hcase] at hphase
          exact hphase
      | releasing frames =>
          rw [hcase] at hphase
          exact hphase
    · obtain ⟨published, hposted, hassembled⟩ := h.delivered
      refine ⟨published, hposted.trans (congrArg (published ++ ·) ?_), hassembled⟩
      refine List.map_congr_left fun d hd ↦ ?_
      have hrx : d ∈ s.rx := by
        unfold unpublished at hd
        split at hd
        · exact List.mem_of_mem_drop hd
        · exact hd
      exact congrArg (XdpFragment.mk · _) (hread d hrx).symm
  · exact h

theorem length_le_of_eq_take {α β : Type} {f : α → β} {l : List α} {r : List β}
    (h : r = (l.take r.length).map f) : r.length ≤ l.length := by
  have hlength := congrArg List.length h
  rw [List.length_map, List.length_take] at hlength
  exact min_eq_left_iff.mp hlength.symm

/-- A descriptor behind a batch leaves the batch. -/
theorem eq_take_append {α β : Type} {f : α → β} {l : List α} {r : List β}
    (h : r = (l.take r.length).map f) (more : List α) : r = ((l ++ more).take r.length).map f := by
  rwa [List.take_append_of_le_length (length_le_of_eq_take h)]

theorem Sound.post (h : Sound lib captureBatch s) (d : XdpDesc) :
    Sound lib captureBatch (s.step lib captureBatch (.post d)) := by
  dsimp only [step]
  split_ifs with hmay
  · obtain ⟨hlent, hchunk, hlen, hroom⟩ := hmay
    have hphase := h.inPhase
    refine ⟨?_, ?_, ?_, ?_, h.errors, ?_⟩
    · refine List.Perm.trans ?_ h.custody
      have hgiven : (s.lent.erase (frameOf d.addr) ++ [frameOf d.addr]).Perm s.lent :=
        (List.perm_append_singleton _ _).trans (List.perm_cons_erase hlent).symm
      have hmoved : (s.lent.erase (frameOf d.addr) ++
          (s.rx.map (fun d ↦ frameOf d.addr) ++ [frameOf d.addr])).Perm
            (s.lent ++ s.rx.map fun d ↦ frameOf d.addr) := by
        refine List.Perm.trans ?_ (hgiven.append_right _)
        rw [List.append_assoc]
        exact List.perm_append_comm.append_left _
      simp only [List.map_append, List.map_singleton, List.append_assoc]
      exact hmoved.append_left _
    · intro d' hd'
      rcases List.mem_append.mp hd' with hd' | hd'
      · exact h.fits d' hd'
      · rw [List.mem_singleton.mp hd']
        exact ⟨hchunk, hlen⟩
    · dsimp only
      rw [List.length_append, List.length_singleton]
      exact hroom
    · unfold InPhase at hphase ⊢
      dsimp only
      cases hcase : s.phase with
      | copying frames copied =>
          rw [hcase] at hphase
          exact ⟨hphase.1, eq_take_append hphase.2.1 _, eq_take_append hphase.2.2.1 _,
            hphase.2.2.2⟩
      | idle =>
          rw [hcase] at hphase
          exact hphase
      | releasing frames =>
          rw [hcase] at hphase
          exact ⟨hphase.1, eq_take_append hphase.2 _⟩
    · obtain ⟨published, hposted, hassembled⟩ := h.delivered
      refine ⟨published, ?_, hassembled⟩
      have hmore : unpublished { s with
          lent := s.lent.erase (frameOf d.addr)
          rx := s.rx ++ [d]
          posted := s.posted ++ [fragmentAt s.memory d] } = s.unpublished ++ [d] := by
        unfold InPhase at hphase
        unfold unpublished
        dsimp only
        cases hcase : s.phase with
        | copying frames copied => rfl
        | idle => rfl
        | releasing frames =>
            rw [hcase] at hphase
            exact List.drop_append_of_le_length (length_le_of_eq_take hphase.2)
      rw [hmore, hposted, List.map_append, List.map_singleton, List.append_assoc]
  · exact h

/-! ### The steps of the worker -/

theorem Sound.peek (h : Sound lib captureBatch s) (hlib : lib.Documented) (seen : ℕ) :
    Sound lib captureBatch (s.step lib captureBatch (.peek seen)) := by
  have hphase := h.inPhase
  dsimp only [step]
  unfold InPhase at hphase
  cases hcase : s.phase with
  | idle =>
      rw [hcase] at hphase
      have hunpublished : s.unpublished = s.rx := by
        rw [unpublished, hcase]
      dsimp only [pmXdpPeek]
      by_cases hbatch : min captureBatch maxBatch = 0
      · rw [if_pos hbatch]
        refine ⟨h.custody, h.fits, h.room, h.inPhase, ?_, h.delivered⟩
        intro e he
        rcases List.mem_append.mp he with he | he
        · exact h.errors e he
        · refine .inr ⟨List.mem_singleton.mp he, ?_⟩
          have hmax : 0 < maxBatch := by decide
          omega
      · rw [if_neg hbatch, if_neg (not_not.mpr hphase)]
        have hdelivered := h.delivered
        rw [hunpublished] at hdelivered
        have hshown := hlib.ringConsPeek seen s.rx (min captureBatch maxBatch)
        cases hdescs : lib.ringConsPeek seen s.rx (min captureBatch maxBatch) with
        | nil =>
            refine ⟨h.custody, h.fits, h.room, ?_, h.errors, ?_⟩
            · dsimp only [InPhase]
              rw [hcase]
              rfl
            · dsimp only [unpublished]
              rw [hcase]
              exact hdelivered
        | cons d descs =>
            have hfront : s.rx.take (d :: descs).length = d :: descs := by
              rw [hdescs] at hshown
              exact (List.prefix_iff_eq_take.mp (hshown.trans (List.take_prefix _ _))).symm
            refine ⟨h.custody, h.fits, h.room, ⟨?_, ?_, rfl, Nat.zero_le _⟩, h.errors, hdelivered⟩
            · exact (List.length_map _).symm
            · rw [List.length_map]
              exact congrArg (List.map (XdpDesc.frame lib)) hfront.symm
  | copying frames copied => exact h
  | releasing frames => exact h

theorem Sound.copy (h : Sound lib captureBatch s) (hlib : lib.Documented) :
    Sound lib captureBatch (s.step lib captureBatch .copy) := by
  have hphase := h.inPhase
  dsimp only [step]
  unfold InPhase at hphase
  cases hcase : s.phase with
  | idle => exact h
  | copying frames copied =>
      rw [hcase] at hphase
      obtain ⟨hcount, hframes, hcopied, hle⟩ := hphase
      dsimp only
      cases hnext : frames[copied.length]? with
      | none => exact h
      | some f =>
          obtain ⟨hlt, -⟩ := List.getElem?_eq_some_iff.mp hnext
          have hrx : copied.length < s.rx.length := hlt.trans_le (length_le_of_eq_take hframes)
          have hf : f = (s.rx[copied.length]).frame lib := by
            have hmapped : frames[copied.length]? =
                ((s.rx.take frames.length).map (XdpDesc.frame lib))[copied.length]? :=
              congrArg (·[copied.length]?) hframes
            rw [hnext, List.getElem?_map, List.getElem?_take_of_lt hlt,
              List.getElem?_eq_getElem hrx] at hmapped
            exact Option.some.inj hmapped
          have haddr := (h.addr_eq hlib (List.getElem_mem hrx)).2
          refine ⟨h.custody, h.fits, h.room, ⟨hcount, hframes, ?_, ?_⟩, h.errors, ?_⟩
          · rw [List.length_append, List.length_singleton, List.take_add_one,
              List.getElem?_eq_getElem hrx, Option.toList_some, List.map_append, ← hcopied,
              List.map_singleton, hf, haddr]
            rfl
          · rw [List.length_append, List.length_singleton]
            exact hlt
          · have hdelivered := h.delivered
            dsimp only [unpublished] at hdelivered ⊢
            rwa [hcase] at hdelivered
  | releasing frames => exact h

theorem Sound.publish (h : Sound lib captureBatch s) (tsNs : ℕ) :
    Sound lib captureBatch (s.step lib captureBatch (.publish tsNs)) := by
  have hphase := h.inPhase
  dsimp only [step]
  unfold InPhase at hphase
  cases hcase : s.phase with
  | idle => exact h
  | copying frames copied =>
      rw [hcase] at hphase
      obtain ⟨hcount, hframes, hcopied, -⟩ := hphase
      dsimp only
      split_ifs with hall
      · refine ⟨h.custody, h.fits, h.room, ⟨hcount, hframes⟩, h.errors, ?_⟩
        obtain ⟨published, hposted, hassembled⟩ := h.delivered
        -- the batch that was copied is the front of the receive ring
        have hbatch : (frames.map PmXdpFrame.options).zip copied =
            (s.rx.take frames.length).map fun d ↦ (d.options, s.memory.read d.addr d.len) := by
          have hoptions : frames.map PmXdpFrame.options =
              (s.rx.take frames.length).map XdpDesc.options := by
            conv_lhs => rw [hframes, List.map_map]
            rfl
          rw [hcopied, ← hall, hoptions, List.zip_map']
        have hunpublished : s.unpublished = s.rx := by
          rw [unpublished, hcase]
        rw [hunpublished, ← List.take_append_drop frames.length s.rx, List.map_append,
          ← List.append_assoc] at hposted
        refine ⟨_, hposted, ?_⟩
        rw [hbatch]
        have hstitch := hassembled.stitch tsNs
          ((s.rx.take frames.length).map fun d ↦ (d.options, s.memory.read d.addr d.len)) ?_
        · rwa [List.map_map] at hstitch
        · intro b hb
          obtain ⟨d, hd, rfl⟩ := List.mem_map.mp hb
          obtain ⟨hchunk, hlen⟩ := h.fits d (List.mem_of_mem_take hd)
          have hsize : d.len ≤ 2048 := (Nat.le_add_left _ _).trans hchunk
          constructor
          · intro hnil
            have hlength := congrArg List.length hnil
            rw [Memory.length_read] at hlength
            exact hlen.ne' hlength
          · rw [Memory.length_read]
            exact hsize.trans (by decide)
      · exact h
  | releasing frames => exact h

theorem Sound.release (h : Sound lib captureBatch s) (hlib : lib.Documented) (polled : Bool) :
    Sound lib captureBatch (s.step lib captureBatch (.release polled)) := by
  have hphase := h.inPhase
  dsimp only [step]
  unfold InPhase at hphase
  cases hcase : s.phase with
  | idle => exact h
  | copying frames copied => exact h
  | releasing frames =>
      rw [hcase] at hphase
      obtain ⟨hcount, hframes⟩ := hphase
      have hle := length_le_of_eq_take hframes
      have hdelivered := h.delivered
      unfold unpublished at hdelivered
      rw [hcase] at hdelivered
      dsimp only [pmXdpRelease] at hdelivered ⊢
      rw [if_neg (not_not.mpr hcount.symm)]
      by_cases hempty : frames.length = 0
      · rw [if_pos hempty]
        rw [hempty, List.drop_zero] at hdelivered
        exact ⟨h.custody, h.fits, h.room, hcount.trans hempty, h.errors, hdelivered⟩
      · -- the fill ring is as long as there are frames
        have hroom : s.fill.length + frames.length ≤ pmFillSize := by
          have hlength := h.length_eq
          have hsize : pmFillSize = pmNumFrames := rfl
          omega
        rw [if_neg hempty, if_neg (not_not.mpr (hlib.ringProdReserve _ _ hroom)),
          hlib.ringProdSubmit _ _ (by rwa [List.length_map]), hlib.ringConsRelease _ _ hle]
        have hreturned : (frames.map PmXdpFrame.addr).map frameOf =
            (s.rx.take frames.length).map fun d ↦ frameOf d.addr := by
          conv_lhs => rw [hframes]
          rw [List.map_map, List.map_map]
          refine List.map_congr_left fun d hd ↦ ?_
          exact congrArg frameOf (h.addr_eq hlib (List.mem_of_mem_take hd)).1
        have hcustody : ((s.fill ++ frames.map PmXdpFrame.addr).map frameOf ++ s.lent ++
            (s.rx.drop frames.length).map fun d ↦ frameOf d.addr).Perm
              (List.range pmNumFrames) := by
          refine List.Perm.trans ?_ h.custody
          rw [← List.take_append_drop frames.length (s.rx), List.map_append, List.map_append,
            hreturned, List.take_append_drop, ← List.append_assoc (_ ++ s.lent)]
          refine List.Perm.append_right _ ?_
          rw [List.append_assoc, List.append_assoc]
          exact List.perm_append_comm.append_left _
        have hfits : ∀ d ∈ s.rx.drop frames.length,
            Memory.InChunk pmFrameSize d.addr d.len ∧ 0 < d.len :=
          fun d hd ↦ h.fits d (List.mem_of_mem_drop hd)
        have hrx : (s.rx.drop frames.length).length ≤ pmRxSize :=
          (List.drop_sublist _ _).length_le.trans h.room
        cases polled with
        | true => exact ⟨hcustody, hfits, hrx, rfl, h.errors, hdelivered⟩
        | false =>
            refine ⟨hcustody, hfits, hrx, rfl, ?_, hdelivered⟩
            intro e he
            rcases List.mem_append.mp he with he | he
            · exact h.errors e he
            · exact .inl (List.mem_singleton.mp he)

/-- The step lemma. -/
theorem Sound.step (h : Sound lib captureBatch s) (hlib : lib.Documented) (e : Event) :
    Sound lib captureBatch (s.step lib captureBatch e) := by
  cases e with
  | take => exact h.take
  | write addr data => exact h.write addr data
  | post d => exact h.post d
  | peek seen => exact h.peek hlib seen
  | copy => exact h.copy hlib
  | publish tsNs => exact h.publish tsNs
  | release polled => exact h.release hlib polled

theorem sound_after (hlib : lib.Documented) (captureBatch : ℕ) (events : List Event) :
    Sound lib captureBatch (after lib captureBatch events) :=
  invariant_runFrom_of_step (fun _ e h ↦ h.step hlib e) events (sound_opened hlib)

/-- Whatever the kernel and the worker do, in any order: every frame is in one place, the
kernel is never left without frames, and no batch fails to go back. -/
theorem frames_after (lib : LibXdp) (hlib : lib.Documented) (captureBatch : ℕ)
    (events : List Event) :
    let s := after lib captureBatch events
    (s.fill.map frameOf ++ s.lent ++ s.rx.map fun d ↦ frameOf d.addr).Perm
        (List.range pmNumFrames) ∧
      pmNumFrames - pmRxSize ≤ s.fill.length + s.lent.length ∧
      ∀ e ∈ s.errors, e = .wakeup ∨ e = .invalid ∧ captureBatch = 0 := by
  have h := sound_after hlib captureBatch events
  refine ⟨h.custody, ?_, h.errors⟩
  have hlength := h.length_eq
  have hroom := h.room
  omega

/-- A library that does as documented. -/
def referenceLibXdp : LibXdp where
  extractAddr addr := addr % 2 ^ 48
  addOffsetToAddr addr := addr % 2 ^ 48 + addr / 2 ^ 48
  getData addr := addr
  ringConsPeek seen ring nb := ring.take (min seen nb)
  ringConsRelease ring nb := ring.drop nb
  ringProdReserve ring nb := if ring.length + nb ≤ pmFillSize then nb else 0
  ringProdSubmit ring addrs := ring ++ addrs

theorem documented_referenceLibXdp : referenceLibXdp.Documented where
  extractAddr addr haddr := Nat.mod_eq_of_lt haddr
  addOffsetToAddr addr haddr := by
    change addr % 2 ^ 48 + addr / 2 ^ 48 = addr
    omega
  getData _ := rfl
  ringConsPeek seen ring nb := List.take_prefix_take_left (min_le_right seen nb)
  ringConsRelease _ _ _ := rfl
  ringProdReserve ring nb hroom := if_pos hroom
  ringProdSubmit _ _ _ := rfl

/-- A packet in two frames, and the worker copies the first one before the second one is there. -/
def twoFrames : List Event :=
  [.take, .take, .write 0 [1, 2], .post ⟨0, 2, 1⟩, .peek 1, .write 2048 [3], .copy,
    .post ⟨2048, 1, 0⟩, .publish 5, .release true, .peek 1, .copy, .publish 6, .release false]

theorem frames_after_twoFrames :
    let s := after referenceLibXdp 64 twoFrames
    s.errors = [.wakeup] ∧ s.lent = [] ∧ s.rx = [] ∧
      (s.fill.map frameOf).Perm (List.range pmNumFrames) := by
  intro s
  obtain ⟨herrors, hlent, hrx⟩ : s.errors = [.wakeup] ∧ s.lent = [] ∧ s.rx = [] := by
    decide +kernel
  obtain ⟨hcustody, -⟩ := frames_after referenceLibXdp documented_referenceLibXdp 64 twoFrames
  have hfill : (s.fill.map frameOf ++ s.lent ++ s.rx.map fun d ↦ frameOf d.addr).Perm
      (List.range pmNumFrames) := hcustody
  rw [hlent, hrx, List.map_nil, List.append_nil, List.append_nil] at hfill
  exact ⟨herrors, hlent, hrx, hfill⟩

/-- What the worker has published is what the kernel has posted, packet by packet, and the rest
is untouched on the receive ring. -/
theorem published_after (lib : LibXdp) (hlib : lib.Documented) (captureBatch : ℕ)
    (events : List Event) :
    let s := after lib captureBatch events
    ∃ published, s.posted = published ++ s.unpublished.map (fragmentAt s.memory) ∧
      Assembled published (s.pendingMultibuf, s.pendingWireLen) s.out :=
  (sound_after hlib captureBatch events).delivered

theorem published_after_twoFrames :
    let s := after referenceLibXdp 64 twoFrames
    s.out.map CapturedFrame.data = [[1, 2, 3]] ∧
      ∃ published, s.posted = published ++ s.unpublished.map (fragmentAt s.memory) ∧
        Assembled published (s.pendingMultibuf, s.pendingWireLen) s.out :=
  ⟨by decide +kernel,
    published_after referenceLibXdp documented_referenceLibXdp 64 twoFrames⟩

end AfXdp

end Bazalt.Capture
